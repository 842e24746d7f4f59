import DecisionDiagrams.Proofs.Compile.Outcome
import DecisionDiagrams.Proofs.Loop.Calls

/-! The loop that evaluates a tree, with a stack of tasks and a stack of diagrams, and with the
loops for the calls inside. It does what the direct recursion does, and it never misses a diagram.
If the names are bound to diagrams in the table, it does not read a number out of range. -/
namespace DecisionDiagrams

inductive TreeTask (α : Type) where
  | visit (e : Expr α)
  | combine (operation : Operation)

inductive TreeLoop (α : Type) where
  | next (s : Store α) (tasks : List (TreeTask α)) (values : List Nat)
  /-- In the loop for a call. -/
  | within (call : CallLoop α) (tasks : List (TreeTask α)) (values : List Nat)

def Panic.answerTree : Except Failure Nat → Except Panic (Except CompileError Nat)
  | .ok d => .ok (.ok d)
  | .error (.rejected e) => .ok (.error e)
  | .error .outOfRange => .error outOfRange

theorem Panic.answerTree_ne_exhausted (result : Except Failure Nat) :
    answerTree result ≠ .error exhausted := by
  rcases result with (error | _) | d <;> simp [answerTree]

namespace TreeLoop

variable {α : Type} [Scalar α]

def start (s : Store α) (e : Expr α) : TreeLoop α := .next s [.visit e] []

def step (bindings : Bindings) (vocabulary : Vocabulary) :
    TreeLoop α → (Except Panic (Except CompileError Nat) × Store α) ⊕ TreeLoop α
  | .next s (.visit (.literal x) :: tasks) values =>
    .inr (.next (s.constant x).2 tasks ((s.constant x).1 :: values))
  | .next s (.visit (.variable name) :: tasks) values =>
    match bindings[name]? with
    | some d => .inr (.next s tasks (d :: values))
    | none => .inl (.ok (.error (.unresolvedVariables [name])), s)
  | .next s (.visit (.apply op operands) :: tasks) values =>
    if !vocabulary.allows op then .inl (.ok (.error (.operatorNotAllowed op)), s)
    else if operands.length ≠ op.arity then
      .inl (.ok (.error (.arityMismatch op operands.length)), s)
    else .inr (.next s (operands.map .visit ++ .combine op.operation :: tasks) values)
  | .next s (.combine (.unary op) :: tasks) (d :: values) =>
    .inr (.within (.start s (.unary op d)) tasks values)
  | .next s (.combine (.binary op) :: tasks) (d' :: d :: values) =>
    .inr (.within (.start s (.binary op d d')) tasks values)
  | .next s (.combine _ :: _) _ => .inl (.error .exhausted, s)
  | .next s [] [d] => .inl (.ok (.ok d), s)
  | .next s [] _ => .inl (.error .exhausted, s)
  | .within call tasks values =>
    match call.step with
    | .inr call => .inr (.within call tasks values)
    | .inl (.ok d, s) => .inr (.next s tasks (d :: values))
    | .inl (.error panic, s) => .inl (.error panic, s)

variable {bindings : Bindings} {vocabulary : Vocabulary}

/-- After a diagram the loop goes on with the tasks, and after an error it ends. -/
def GoesOn (bindings : Bindings) (vocabulary : Vocabulary)
    (outcome : Except Failure Nat × Store α) (tasks : List (TreeTask α)) (values : List Nat)
    (r : Except Panic (Except CompileError Nat) × Store α) : Prop :=
  match outcome with
  | (.ok d, s) => Ends (step bindings vocabulary) (.next s tasks (d :: values)) r
  | (.error failure, s) => r = (Panic.answerTree (.error failure), s)

variable {tasks : List (TreeTask α)} {values : List Nat}
  {r : Except Panic (Except CompileError Nat) × Store α} {s : Store α}

section Within

variable {call : CallLoop α}

theorem ends_within {d : Nat} (hcall : Ends CallLoop.step call (.ok d, s))
    (h : Ends (step bindings vocabulary) (.next s tasks (d :: values)) r) :
    Ends (step bindings vocabulary) (.within call tasks values) r := by
  generalize houtcome : (Except.ok d, s) = outcome at hcall
  induction hcall with
  | stop hstep =>
    subst houtcome
    exact .next (by simp only [step, hstep]) h
  | next hstep _ ih => exact .next (by simp only [step, hstep]) (ih houtcome)

theorem ends_within_error {panic : Panic} (hcall : Ends CallLoop.step call (.error panic, s)) :
    Ends (step bindings vocabulary) (.within call tasks values) (.error panic, s) := by
  generalize houtcome : (Except.error panic, s) = outcome at hcall
  induction hcall with
  | stop hstep =>
    subst houtcome
    exact .stop (by simp only [step, hstep])
  | next hstep _ ih => exact .next (by simp only [step, hstep]) (ih houtcome)

/-- The loop for a call inside does what the call does. -/
theorem ends_within_start (hs : s.Closed) {c : Call}
    (h : GoesOn bindings vocabulary (s.combine c) tasks values r) :
    Ends (step bindings vocabulary) (.within (.start s c) tasks values) r := by
  have hcall := hs.ends_perform? c
  unfold Store.combine at h
  rcases hperform : s.perform? c with ⟨_ | d, s'⟩
  · rw [hperform] at h hcall
    cases h
    exact ends_within_error hcall
  · rw [hperform] at h hcall
    exact ends_within hcall h

end Within

section Apply

variable {op : Operator} {operands : List (Expr α)} (hallows : ¬(!vocabulary.allows op) = true)
include hallows

theorem step_apply_one {op' : UnaryOp} {e : Expr α}
    (h : op.operands? operands = some (.one op' e)) :
    step bindings vocabulary (.next s (.visit (.apply op operands) :: tasks) values) =
      .inr (.next s (.visit e :: .combine (.unary op') :: tasks) values) := by
  have hlength : operands.length = op.arity := Operator.length_eq_arity_iff.mpr (by simp [h])
  obtain ⟨hop, rfl⟩ := Operator.of_operands?_one h
  rw [step, if_neg hallows, if_neg (not_not.mpr hlength), hop]
  rfl

theorem step_apply_two {op' : BinaryOp} {e e' : Expr α}
    (h : op.operands? operands = some (.two op' e e')) :
    step bindings vocabulary (.next s (.visit (.apply op operands) :: tasks) values) =
      .inr (.next s (.visit e :: .visit e' :: .combine (.binary op') :: tasks) values) := by
  have hlength : operands.length = op.arity := Operator.length_eq_arity_iff.mpr (by simp [h])
  obtain ⟨hop, rfl⟩ := Operator.of_operands?_two h
  rw [step, if_neg hallows, if_neg (not_not.mpr hlength), hop]
  rfl

theorem step_apply_none (h : op.operands? operands = none) :
    step bindings vocabulary (.next s (.visit (.apply op operands) :: tasks) values) =
      .inl (.ok (.error (.arityMismatch op operands.length)), s) := by
  have hlength : operands.length ≠ op.arity := by
    rw [ne_eq, Operator.length_eq_arity_iff]
    simpa using h
  rw [step, if_neg hallows, if_pos hlength]

end Apply

variable [LawfulScalar α] {levels : Nat}

/-- The loop does for a tree on top of its tasks what the direct recursion does. -/
theorem ends_visit (hs : s.WellFormed levels) {e : Expr α}
    (h : GoesOn bindings vocabulary (s.evaluateExpr bindings vocabulary e) tasks values r) :
    Ends (step bindings vocabulary) (.next s (.visit e :: tasks) values) r := by
  fun_induction Store.evaluateExpr s bindings vocabulary e generalizing tasks values r with
  | case1 s x => exact .next rfl h
  | case2 s name d hname => exact .next (by simp only [step, hname]) h
  | case3 s name hname =>
    cases h
    exact .stop (by simp only [step, hname, Panic.answerTree])
  | case4 s op operands hallows =>
    cases h
    exact .stop (if_pos hallows)
  | case5 s op operands hallows hnone =>
    cases h
    exact .stop (step_apply_none hallows hnone)
  | case6 s op operands hallows op' e hone d s' heval ih =>
    have hs' := (hs.keeps_of_evaluateExpr heval).wellFormed
    have hcombine : Ends (step bindings vocabulary)
        (.next s' (.combine (.unary op') :: tasks) (d :: values)) r :=
      .next rfl (ends_within_start hs'.closed h)
    refine .next (step_apply_one hallows hone) (ih hs ?_)
    rw [heval]
    exact hcombine
  | case7 s op operands hallows op' e hone failure s' heval ih =>
    refine .next (step_apply_one hallows hone) (ih hs ?_)
    rw [heval]
    exact h
  | case8 s op operands hallows op' e e' htwo d s' heval d' s'' heval' ih ih' =>
    have hs' := (hs.keeps_of_evaluateExpr heval).wellFormed
    have hs'' := (hs'.keeps_of_evaluateExpr heval').wellFormed
    have hcombine : Ends (step bindings vocabulary)
        (.next s'' (.combine (.binary op') :: tasks) (d' :: d :: values)) r :=
      .next rfl (ends_within_start hs''.closed h)
    have hright : Ends (step bindings vocabulary)
        (.next s' (.visit e' :: .combine (.binary op') :: tasks) (d :: values)) r := by
      refine ih' hs' ?_
      rw [heval']
      exact hcombine
    refine .next (step_apply_two hallows htwo) (ih hs ?_)
    rw [heval]
    exact hright
  | case9 s op operands hallows op' e e' htwo d s' heval failure s'' heval' ih ih' =>
    have hs' := (hs.keeps_of_evaluateExpr heval).wellFormed
    have hright : Ends (step bindings vocabulary)
        (.next s' (.visit e' :: .combine (.binary op') :: tasks) (d :: values)) r := by
      refine ih' hs' ?_
      rw [heval']
      exact h
    refine .next (step_apply_two hallows htwo) (ih hs ?_)
    rw [heval]
    exact hright
  | case10 s op operands hallows op' e e' htwo failure s' heval ih =>
    refine .next (step_apply_two hallows htwo) (ih hs ?_)
    rw [heval]
    exact h

/-- The loop over a tree ends with the outcome of its evaluation. -/
theorem ends_evaluate (hs : s.WellFormed levels) (bindings : Bindings) (vocabulary : Vocabulary)
    (e : Expr α) :
    Ends (step bindings vocabulary) (start s e)
      (Panic.answerTree (s.evaluate bindings vocabulary e).1,
        (s.evaluate bindings vocabulary e).2) := by
  rw [Store.evaluate_eq]
  refine ends_visit hs ?_
  rcases s.evaluateExpr bindings vocabulary e with ⟨failure | d, s'⟩
  · rfl
  · exact .stop rfl

end TreeLoop

namespace Store

variable {α : Type} [Scalar α] [LawfulScalar α] {levels : Nat} {s : Store α}

/-- An outcome is in range if it is a diagram in the table, or an error that is not for a number out
of range. -/
def OutcomeInRange : Except Failure Nat × Store α → Prop
  | (.ok d, s) => d < s.table.size
  | (.error failure, _) => failure ≠ .outOfRange

theorem WellFormed.combine_inRange (hs : s.WellFormed levels) {c : Call}
    (hc : c.InRange s.table.size) : OutcomeInRange (s.combine c) := by
  obtain ⟨d, s', hcombine, hd, -⟩ := hs.combine_eq hc
  rw [hcombine]
  exact hd

/-- The evaluation of any tree whose names have no diagrams but such that are in the table meets no
number out of range. -/
theorem WellFormed.evaluateExpr_inRange (hs : s.WellFormed levels) {bindings : Bindings}
    (vocabulary : Vocabulary) {e : Expr α}
    (h : ∀ name d, e.Mentions name → bindings[name]? = some d → d < s.table.size) :
    OutcomeInRange (s.evaluateExpr bindings vocabulary e) := by
  fun_induction Store.evaluateExpr s bindings vocabulary e with
  | case1 s x => exact (hs.table.terminal x).lt_size
  | case2 s name d hname => exact h name d .variable hname
  | case3 s name hname => simp [OutcomeInRange]
  | case4 s op operands hallows => simp [OutcomeInRange]
  | case5 s op operands hallows hnone => simp [OutcomeInRange]
  | case6 s op operands hallows op' e hone d s' heval ih =>
    obtain ⟨-, rfl⟩ := Operator.of_operands?_one hone
    have hd := ih hs fun name d hname => h name d (.operand (List.mem_singleton_self e) hname)
    rw [heval] at hd
    exact (hs.keeps_of_evaluateExpr heval).wellFormed.combine_inRange (c := .unary op' d) hd
  | case7 s op operands hallows op' e hone failure s' heval ih =>
    obtain ⟨-, rfl⟩ := Operator.of_operands?_one hone
    have hfailure := ih hs fun name d hname =>
      h name d (.operand (List.mem_singleton_self e) hname)
    rwa [heval] at hfailure
  | case8 s op operands hallows op' e e' htwo d s' heval d' s'' heval' ih ih' =>
    obtain ⟨-, rfl⟩ := Operator.of_operands?_two htwo
    have hs' := hs.keeps_of_evaluateExpr heval
    have hs'' := hs'.wellFormed.keeps_of_evaluateExpr heval'
    have hd := ih hs fun name d hname => h name d (.operand List.mem_cons_self hname)
    have hd' := ih' hs'.wellFormed fun name d hname hbound =>
      hs'.grows.lt (h name d (.operand (List.mem_cons_of_mem e List.mem_cons_self) hname) hbound)
    rw [heval] at hd
    rw [heval'] at hd'
    exact hs''.wellFormed.combine_inRange (c := .binary op' d d') ⟨hs''.grows.lt hd, hd'⟩
  | case9 s op operands hallows op' e e' htwo d s' heval failure s'' heval' ih ih' =>
    obtain ⟨-, rfl⟩ := Operator.of_operands?_two htwo
    have hs' := hs.keeps_of_evaluateExpr heval
    have hfailure := ih' hs'.wellFormed fun name d hname hbound =>
      hs'.grows.lt (h name d (.operand (List.mem_cons_of_mem e List.mem_cons_self) hname) hbound)
    rwa [heval'] at hfailure
  | case10 s op operands hallows op' e e' htwo failure s' heval ih =>
    obtain ⟨-, rfl⟩ := Operator.of_operands?_two htwo
    have hfailure := ih hs fun name d hname => h name d (.operand List.mem_cons_self hname)
    rwa [heval] at hfailure

end Store

namespace Manager

variable {α : Type} [Scalar α] [LawfulScalar α] {m : Manager α} {e : Expr α}

/-- Names are bound to diagrams in the table, in either way. -/
theorem WellFormed.resolve_inRange (hm : m.WellFormed) {naming : Naming} {bindings : Bindings}
    {m' : Manager α} (h : m.resolve e.names naming = (.ok bindings, m')) :
    ∀ name d, e.Mentions name → bindings[name]? = some d → d < m'.table.size := by
  intro name d hname hbound
  cases naming with
  | interpretation given =>
    obtain ⟨hrestrict, rfl⟩ := Prod.mk.inj h
    have hgiven := interprets_of_restrict hrestrict
    obtain ⟨bindings', hresolve, hsame⟩ := hgiven.exists_resolve
    cases hresolve.symm.trans h
    rw [hsame name hname] at hbound
    obtain ⟨d', hd', hcontains⟩ := hgiven name hname
    cases hbound.symm.trans hd'
    exact lt_of_contains hcontains
  | encoding =>
    obtain ⟨bindings', m'', hresolve, -, hbinds⟩ := hm.resolve_encoding e
    cases hresolve.symm.trans h
    obtain ⟨d', hd', hdenotes⟩ := hbinds name hname
    cases hbound.symm.trans hd'
    exact hdenotes.lt_size

end Manager

end DecisionDiagrams
