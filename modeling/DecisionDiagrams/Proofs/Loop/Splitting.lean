import DecisionDiagrams.Proofs.Loop.Memory
import DecisionDiagrams.Proofs.Loop.Trees

/-! The calls that a loop over a tree splits. The loops for the calls inside go on with the memory
of each other, so that no call is split twice. -/
namespace DecisionDiagrams

namespace CallLoop

variable {α : Type} [Scalar α]

/-- The loop is fresh and comes to a result in a well-formed store, or it panics while no branch
remains to be built. -/
structure Valid (levels : Nat) (l : CallLoop α) : Prop where
  fresh : l.Fresh
  ends : (∃ d s, Ends step l (.ok d, s) ∧ s.WellFormed levels) ∨
    ∃ panic s, step l = .inl (.error panic, s) ∧ Task.keys l.tasks = []

variable {levels : Nat} {l l' : CallLoop α}

theorem start_valid [LawfulScalar α] {s : Store α} (hs : s.WellFormed levels) (c : Call) :
    (start s c).Valid levels where
  fresh := start_fresh s c
  ends := by
    by_cases hc : c.InRange s.table.size
    · exact .inl ⟨_, _, (hs.closed.ends_perform hc).1, (hs.keeps_perform hc).wellFormed⟩
    · exact .inr ⟨.outOfRange, s, if_neg hc, rfl⟩

theorem Valid.step (hl : l.Valid levels) (h : step l = .inr l') : l'.Valid levels where
  fresh := hl.fresh.step (step_of_eq h)
  ends := by
    rcases hl.ends with ⟨d, s, hends, hs⟩ | ⟨panic, s, hstop, -⟩
    · exact .inl ⟨d, s, hends.of_step h, hs⟩
    · cases hstop.symm.trans h

theorem Valid.wellFormed_of_stop (hl : l.Valid levels) {d : Nat} {s : Store α}
    (h : CallLoop.step l = .inl (.ok d, s)) : s.WellFormed levels := by
  rcases hl.ends with ⟨d', s', hends, hs⟩ | ⟨panic, s', hstop, -⟩
  · cases hends.unique (.stop h)
    exact hs
  · cases hstop.symm.trans h

/-- When the loop ends nothing is left to be remembered. -/
theorem Valid.holds_iff_of_stop (hl : l.Valid levels) {outcome : Except Panic Nat × Store α}
    (h : CallLoop.step l = .inl outcome) (key : Call) : l.Holds key ↔ key ∈ outcome.2.memo := by
  have hkeys : Task.keys l.tasks = [] := by
    rcases hl.ends with ⟨d, s, hends, -⟩ | ⟨panic, s, -, hkeys⟩
    · cases hends.unique (.stop h)
      rw [(stop_of_eq h).2 d rfl]
      rfl
    · exact hkeys
  simp [Holds, hkeys, (stop_of_eq h).1]

theorem splitting?_of_stop {d : Nat} {s : Store α} (h : step l = .inl (.ok d, s)) :
    l.splitting? = none := by
  obtain ⟨store, tasks, results⟩ := l
  cases (stop_of_eq h).2 d rfl
  rfl

end CallLoop

namespace TreeLoop

variable {α : Type} [Scalar α] {bindings : Bindings} {vocabulary : Vocabulary}

def splitting? : TreeLoop α → Option Call
  | .next _ _ _ => none
  | .within call _ _ => call.splitting?

inductive Step : TreeLoop α → TreeLoop α → Prop where
  | stay (s : Store α) (tasks tasks' : List (TreeTask α)) (values values' : List Nat) :
      Step (.next s tasks values) (.next s tasks' values')
  | constant (s : Store α) (x : α) (tasks tasks' : List (TreeTask α)) (values values' : List Nat) :
      Step (.next s tasks values) (.next (s.constant x).2 tasks' values')
  | enter (s : Store α) (c : Call) (tasks tasks' : List (TreeTask α)) (values values' : List Nat) :
      Step (.next s tasks values) (.within (.start s c) tasks' values')
  | inside {call call' : CallLoop α} (tasks : List (TreeTask α)) (values : List Nat)
      (h : call.step = .inr call') :
      Step (.within call tasks values) (.within call' tasks values)
  | leave {call : CallLoop α} {d : Nat} {s : Store α} (tasks : List (TreeTask α))
      (values : List Nat) (h : call.step = .inl (.ok d, s)) :
      Step (.within call tasks values) (.next s tasks (d :: values))

variable {l l' : TreeLoop α}

theorem step_of_eq (h : step bindings vocabulary l = .inr l') : Step l l' := by
  unfold step at h
  split at h
  next s x tasks values => cases h; exact .constant s x _ _ _ _
  next s name tasks values =>
    split at h
    next => cases h; exact .stay s _ _ _ _
    next => cases h
  next s op operands tasks values =>
    split at h
    next => cases h
    split at h
    next => cases h
    next => cases h; exact .stay s _ _ _ _
  next s op tasks d values => cases h; exact .enter s _ _ _ _ _
  next s op tasks d' d values => cases h; exact .enter s _ _ _ _ _
  next => cases h
  next => cases h
  next => cases h
  next call tasks values =>
    split at h
    next hstep => cases h; exact .inside tasks values hstep
    next hstep => cases h; exact .leave tasks values hstep
    next => cases h

/-- At the end the store is what it is, and in the loop for a call only a panic ends the loop. -/
theorem stop_cases {r : Except Panic (Except CompileError Nat) × Store α}
    (h : step bindings vocabulary l = .inl r) :
    (∃ tasks values, l = .next r.2 tasks values) ∨
      ∃ call tasks values panic, l = .within call tasks values ∧
        call.step = .inl (.error panic, r.2) := by
  unfold step at h
  split at h
  next => cases h
  next s name tasks values =>
    split at h
    next => cases h
    next => cases h; exact .inl ⟨_, _, rfl⟩
  next =>
    split at h
    next => cases h; exact .inl ⟨_, _, rfl⟩
    split at h
    next => cases h; exact .inl ⟨_, _, rfl⟩
    next => cases h
  next => cases h
  next => cases h
  next => cases h; exact .inl ⟨_, _, rfl⟩
  next => cases h; exact .inl ⟨_, _, rfl⟩
  next => cases h; exact .inl ⟨_, _, rfl⟩
  next call tasks values =>
    split at h
    next => cases h
    next => cases h
    next panic s hstep => cases h; exact .inr ⟨call, tasks, values, panic, rfl, hstep⟩

def Holds : TreeLoop α → Call → Prop
  | .next s _ _, key => key ∈ s.memo
  | .within call _ _, key => call.Holds key

def Valid (levels : Nat) : TreeLoop α → Prop
  | .next s _ _ => s.WellFormed levels
  | .within call _ _ => call.Valid levels

variable [LawfulScalar α] {levels : Nat}

theorem Valid.step (hl : l.Valid levels) (h : Step l l') : l'.Valid levels := by
  cases h with
  | stay s => exact hl
  | constant s x => exact (Store.WellFormed.constant hl x).wellFormed
  | enter s c => exact CallLoop.start_valid hl c
  | inside tasks values h => exact CallLoop.Valid.step hl h
  | leave tasks values h => exact CallLoop.Valid.wellFormed_of_stop hl h

theorem Valid.run {l l' : TreeLoop α} (hl : l.Valid levels)
    (h : Relation.ReflTransGen (fun l l' => TreeLoop.step bindings vocabulary l = .inr l') l l') :
    l'.Valid levels := by
  induction h with
  | refl => exact hl
  | tail _ hstep ih => exact ih.step (step_of_eq hstep)

omit [LawfulScalar α] in
theorem Valid.holds_iff (hl : l.Valid levels) (h : Step l l') (key : Call) :
    l'.Holds key ↔ l.Holds key ∨ key ∈ l.splitting? := by
  cases h with
  | stay s => simp [Holds, splitting?]
  | constant s x => simp [Holds, splitting?, Store.constant]
  | enter s c => simp [Holds, splitting?, CallLoop.Holds, CallLoop.start, Task.keys]
  | inside tasks values h => exact (CallLoop.step_of_eq h).holds_iff key
  | leave tasks values h =>
    rw [splitting?, CallLoop.splitting?_of_stop h, Holds, Holds, hl.holds_iff_of_stop h]
    simp

/-- No call is split that is remembered or under way. -/
theorem remembers (levels : Nat) (bindings : Bindings) (vocabulary : Vocabulary) :
    Remembers (step (α := α) bindings vocabulary) splitting? (Valid levels) Holds
      fun r key => key ∈ r.2.memo where
  valid hl h := hl.step (step_of_eq h)
  holds_iff hl h := hl.holds_iff (step_of_eq h)
  fresh {l l'} hl h := by
    cases step_of_eq h with
    | stay => exact nofun
    | constant => exact nofun
    | enter => exact nofun
    | inside tasks values hcall => exact hl.fresh.not_holds (CallLoop.step_of_eq hcall)
    | leave tasks values hcall =>
      rw [splitting?, CallLoop.splitting?_of_stop hcall]
      exact nofun
  stop {l r} hl h key := by
    rcases stop_cases h with ⟨tasks, values, rfl⟩ | ⟨call, tasks, values, panic, rfl, hstep⟩
    · rfl
    · exact (hl.holds_iff_of_stop hstep key).symm

end TreeLoop

end DecisionDiagrams
