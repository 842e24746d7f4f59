import DecisionDiagrams.Proofs.Compile.Denotation
import DecisionDiagrams.Proofs.Expr.Meeting

/-! The order in which an evaluation goes through a tree. It ends at the first node with a fault, or
before it at an operator that reads a number out of range, and what is in the store then is what the
trees that are complete put there. -/
namespace DecisionDiagrams

/-- The call of an operation on as many operands as it takes. -/
def Operation.call? : Operation → List Nat → Option Call
  | .unary op, [d] => some (.unary op d)
  | .binary op, [d, d'] => some (.binary op d d')
  | _, _ => none

theorem Operation.inRange_of_call? {operation : Operation} {ds : List Nat} {c : Call}
    (h : operation.call? ds = some c) (size : Nat) : c.InRange size ↔ ∀ d ∈ ds, d < size := by
  unfold call? at h
  split at h
  next => cases h; simp [Call.InRange]
  next => cases h; simp [Call.InRange]
  next => cases h

namespace Store

variable {α : Type} [Scalar α]

/-- Evaluates trees from left to right, up to the first one that has no diagram. -/
def evaluateAll (s : Store α) (bindings : Bindings) (vocabulary : Vocabulary) :
    List (Expr α) → Except Failure (List Nat) × Store α
  | [] => (.ok [], s)
  | tree :: trees =>
    match s.evaluateExpr bindings vocabulary tree with
    | (.ok d, s) =>
      match s.evaluateAll bindings vocabulary trees with
      | (.ok ds, s) => (.ok (d :: ds), s)
      | (.error failure, s) => (.error failure, s)
    | (.error failure, s) => (.error failure, s)

section EvaluateAll

variable {bindings : Bindings} {vocabulary : Vocabulary} {s s₁ s' : Store α} {tree : Expr α}
  {trees : List (Expr α)} {ds : List Nat} {failure : Failure}

theorem evaluateAll_cons {d : Nat}
    (h : s.evaluateExpr bindings vocabulary tree = (.ok d, s')) (trees : List (Expr α)) :
    s.evaluateAll bindings vocabulary (tree :: trees) =
      match s'.evaluateAll bindings vocabulary trees with
      | (.ok ds, s) => (.ok (d :: ds), s)
      | (.error failure, s) => (.error failure, s) := by
  rw [evaluateAll, h]

theorem evaluateAll_cons_error
    (h : s.evaluateExpr bindings vocabulary tree = (.error failure, s')) (trees : List (Expr α)) :
    s.evaluateAll bindings vocabulary (tree :: trees) = (.error failure, s') := by
  rw [evaluateAll, h]

theorem of_evaluateAll_cons (h : s.evaluateAll bindings vocabulary (tree :: trees) = (.ok ds, s')) :
    ∃ d s₁ ds', s.evaluateExpr bindings vocabulary tree = (.ok d, s₁) ∧
      s₁.evaluateAll bindings vocabulary trees = (.ok ds', s') ∧ ds = d :: ds' := by
  rw [evaluateAll] at h
  split at h
  next d s₁ htree =>
    split at h
    next ds' s₂ htrees => cases h; exact ⟨d, s₁, ds', htree, htrees, rfl⟩
    next => cases h
  next => cases h

theorem of_evaluateAll_cons_error
    (h : s.evaluateAll bindings vocabulary (tree :: trees) = (.error failure, s')) :
    s.evaluateExpr bindings vocabulary tree = (.error failure, s') ∨
      ∃ d s₁, s.evaluateExpr bindings vocabulary tree = (.ok d, s₁) ∧
        s₁.evaluateAll bindings vocabulary trees = (.error failure, s') := by
  rw [evaluateAll] at h
  split at h
  next d s₁ htree =>
    split at h
    next => cases h
    next htrees => cases h; exact .inr ⟨d, s₁, htree, htrees⟩
  next htree => cases h; exact .inl htree

theorem evaluateAll_single (s : Store α) (tree : Expr α) :
    s.evaluateAll bindings vocabulary [tree] =
      ((s.evaluateExpr bindings vocabulary tree).1.map fun d => [d],
        (s.evaluateExpr bindings vocabulary tree).2) := by
  rw [evaluateAll]
  split
  next h => rw [h]; rfl
  next h => rw [h]; rfl

theorem evaluateAll_single_error :
    s.evaluateAll bindings vocabulary [tree] = (.error failure, s') ↔
      s.evaluateExpr bindings vocabulary tree = (.error failure, s') := by
  rw [evaluateAll_single]
  rcases s.evaluateExpr bindings vocabulary tree with ⟨_ | _, _⟩
  · simp [Except.map]
  · simp [Except.map]

theorem evaluateExpr_of_fault? {error : CompileError}
    (h : tree.fault? bindings vocabulary = some error) :
    s.evaluateExpr bindings vocabulary tree = (.error (.rejected error), s) := by
  cases tree with
  | literal x => cases h
  | «variable» name =>
    rw [Expr.fault?] at h
    split at h
    next hname =>
      cases h
      rw [evaluateExpr, Option.isNone_iff_eq_none.mp hname]
    next => cases h
  | apply op operands =>
    rw [Expr.fault?] at h
    split at h
    next hallows => cases h; rw [evaluateExpr, if_pos hallows]
    next hallows =>
      split at h
      next hlength =>
        rw [ne_eq, Operator.length_eq_arity_iff, not_not] at hlength
        cases h
        rw [evaluateExpr_apply hallows, hlength]
      next => cases h

section Faultless

variable {op : Operator} {operands : List (Expr α)}
  (h : (Expr.apply op operands).fault? bindings vocabulary = none)
include h

/-- An operator without a fault fails if one of its operands does. -/
theorem evaluateExpr_of_operands_error
    (hoperands : s.evaluateAll bindings vocabulary operands = (.error failure, s')) :
    s.evaluateExpr bindings vocabulary (.apply op operands) = (.error failure, s') := by
  obtain ⟨hallows, hlength⟩ := Expr.of_fault?_eq_none h
  rw [evaluateExpr_apply hallows]
  rcases Operator.one_or_two_operands hlength with
    ⟨op', e, -, rfl, hone⟩ | ⟨op', e, e', -, rfl, htwo⟩
  · rcases of_evaluateAll_cons_error hoperands with heval | ⟨d, s₁, -, hnil⟩
    · simp only [hone, heval]
    · cases hnil
  · rcases of_evaluateAll_cons_error hoperands with heval | ⟨d, s₁, heval, hrest⟩
    · simp only [htwo, heval]
    · rcases of_evaluateAll_cons_error hrest with heval' | ⟨d', s₂, -, hnil⟩
      · simp only [htwo, heval, heval']
      · cases hnil

/-- An operator without a fault combines the diagrams of its operands in their order. -/
theorem exists_evaluateExpr_eq_combine
    (hoperands : s.evaluateAll bindings vocabulary operands = (.ok ds, s')) :
    ∃ c, op.operation.call? ds = some c ∧
      s.evaluateExpr bindings vocabulary (.apply op operands) = s'.combine c := by
  obtain ⟨hallows, hlength⟩ := Expr.of_fault?_eq_none h
  rw [evaluateExpr_apply hallows]
  rcases Operator.one_or_two_operands hlength with
    ⟨op', e, hop, rfl, hone⟩ | ⟨op', e, e', hop, rfl, htwo⟩
  · obtain ⟨d, s₁, _, heval, hnil, rfl⟩ := of_evaluateAll_cons hoperands
    cases hnil
    exact ⟨.unary op' d, by rw [hop]; rfl, by simp only [hone, heval]⟩
  · obtain ⟨d, s₁, _, heval, hrest, rfl⟩ := of_evaluateAll_cons hoperands
    obtain ⟨d', s₂, _, heval', hnil, rfl⟩ := of_evaluateAll_cons hrest
    cases hnil
    exact ⟨.binary op' d d', by rw [hop]; rfl, by simp only [htwo, heval, heval']⟩

end Faultless

theorem combine_of_not_inRange {c : Call} (h : ¬c.InRange s.table.size) :
    s.combine c = (.error .outOfRange, s) := by
  rw [combine, perform?, if_neg h]

theorem evaluateAll_append {trees' : List (Expr α)}
    (h : s.evaluateAll bindings vocabulary trees = (.ok ds, s')) :
    s.evaluateAll bindings vocabulary (trees ++ trees') =
      ((s'.evaluateAll bindings vocabulary trees').1.map fun ds' => ds ++ ds',
        (s'.evaluateAll bindings vocabulary trees').2) := by
  induction trees generalizing s ds with
  | nil =>
    cases h
    rw [List.nil_append]
    rcases s'.evaluateAll bindings vocabulary trees' with ⟨_ | _, _⟩
    · rfl
    · rfl
  | cons tree trees ih =>
    obtain ⟨d, s₁, ds', htree, htrees, rfl⟩ := of_evaluateAll_cons h
    rw [List.cons_append, evaluateAll_cons htree, ih htrees]
    rcases s'.evaluateAll bindings vocabulary trees' with ⟨_ | _, _⟩
    · rfl
    · rfl

theorem evaluateAll_append_error {trees' : List (Expr α)}
    (h : s.evaluateAll bindings vocabulary trees = (.error failure, s')) :
    s.evaluateAll bindings vocabulary (trees ++ trees') = (.error failure, s') := by
  induction trees generalizing s with
  | nil => cases h
  | cons tree trees ih =>
    rcases of_evaluateAll_cons_error h with htree | ⟨d, s₁, htree, htrees⟩
    · exact evaluateAll_cons_error htree _
    · rw [List.cons_append, evaluateAll_cons htree, ih htrees]

theorem of_evaluateAll_append {trees' : List (Expr α)}
    (h : s.evaluateAll bindings vocabulary (trees ++ trees') = (.ok ds, s')) :
    ∃ ds₁ s₁ ds₂, s.evaluateAll bindings vocabulary trees = (.ok ds₁, s₁) ∧
      s₁.evaluateAll bindings vocabulary trees' = (.ok ds₂, s') ∧ ds = ds₁ ++ ds₂ := by
  rcases htrees : s.evaluateAll bindings vocabulary trees with ⟨failure | ds₁, s₁⟩
  · rw [evaluateAll_append_error htrees] at h
    cases h
  · rw [evaluateAll_append htrees] at h
    rcases htrees' : s₁.evaluateAll bindings vocabulary trees' with ⟨failure | ds₂, s₂⟩
    · rw [htrees'] at h
      cases h
    · rw [htrees'] at h
      cases h
      exact ⟨ds₁, s₁, ds₂, rfl, htrees', rfl⟩

variable {earlier finished : List (Expr α)} {node : Expr α}

/-- A node that fails makes the whole fail, unless a node before it has a fault. -/
theorem evaluateAll_of_meets (h : Expr.Meets trees earlier finished node)
    (hearlier : ∀ e ∈ earlier, e.fault? bindings vocabulary = none)
    (hfails : s.evaluateAll bindings vocabulary (finished ++ [node]) = (.error failure, s')) :
    s.evaluateAll bindings vocabulary trees = (.error failure, s') := by
  induction h generalizing s with
  | root node trees => exact evaluateAll_append_error hfails
  | operand trees _ ih =>
    obtain ⟨hroot, hearlier⟩ := List.forall_mem_cons.mp hearlier
    exact evaluateAll_cons_error (evaluateExpr_of_operands_error hroot (ih hearlier hfails)) trees
  | later tree _ ih =>
    rcases of_evaluateAll_cons_error hfails with htree | ⟨d, s₁, htree, hrest⟩
    · exact evaluateAll_cons_error htree _
    · have htrees := ih (fun e he => hearlier e (List.mem_append_right _ he)) hrest
      rw [evaluateAll_cons htree, htrees]

/-- Behind the first fault nothing matters. The evaluation comes to this fault, unless the trees
that are complete by then come to a failure. -/
theorem evaluateExpr_of_failsFirst {error : CompileError}
    (h : Expr.FailsFirst bindings vocabulary [tree] finished error) :
    s.evaluateExpr bindings vocabulary tree =
      match s.evaluateAll bindings vocabulary finished with
      | (.ok _, s) => (.error (.rejected error), s)
      | (.error failure, s) => (.error failure, s) := by
  obtain ⟨earlier, node, hmeets, hearlier, hnode⟩ := h
  split
  next ds s₁ hfinished =>
    refine evaluateAll_single_error.mp (evaluateAll_of_meets hmeets hearlier ?_)
    rw [evaluateAll_append hfinished, evaluateAll_single, evaluateExpr_of_fault? hnode]
    rfl
  next failure s₁ hfinished =>
    exact evaluateAll_single_error.mp
      (evaluateAll_of_meets hmeets hearlier (evaluateAll_append_error hfinished))

/-- An operator reads a number that a name is bound to and that is not in the table, and no node
before it has a fault. -/
def ReadsOutOfRange (s : Store α) (bindings : Bindings) (vocabulary : Vocabulary)
    (trees : List (Expr α)) (s' : Store α) : Prop :=
  ∃ earlier finished op operands ds name d,
    Expr.Meets trees earlier finished (.apply op operands) ∧
    (∀ e ∈ earlier, e.fault? bindings vocabulary = none) ∧
    (Expr.apply op operands).fault? bindings vocabulary = none ∧
    s.evaluateAll bindings vocabulary (finished ++ operands) = (.ok ds, s') ∧
    .variable name ∈ operands ∧ bindings[name]? = some d ∧ ¬d < s'.table.size

/-- What an outcome of evaluating the trees says about them. -/
def Explains (s : Store α) (bindings : Bindings) (vocabulary : Vocabulary)
    (trees : List (Expr α)) : Except Failure (List Nat) × Store α → Prop
  | (.ok _, _) => ∀ e ∈ Expr.preorderAll trees, e.fault? bindings vocabulary = none
  | (.error (.rejected error), s') => ∃ finished ds,
    Expr.FailsFirst bindings vocabulary trees finished error ∧
      s.evaluateAll bindings vocabulary finished = (.ok ds, s')
  | (.error .outOfRange, s') => s.ReadsOutOfRange bindings vocabulary trees s'

/-- A failure in some trees is one of trees in which these come after nodes without a fault, when
the trees `front` are complete. -/
theorem Explains.within {trees' nodes front : List (Expr α)}
    (hmeets : ∀ {earlier finished : List (Expr α)} {node : Expr α},
      Expr.Meets trees earlier finished node →
        Expr.Meets trees' (nodes ++ earlier) (front ++ finished) node)
    (hnodes : ∀ e ∈ nodes, e.fault? bindings vocabulary = none)
    (hfront : s.evaluateAll bindings vocabulary front = (.ok ds, s₁))
    (h : s₁.Explains bindings vocabulary trees (.error failure, s')) :
    s.Explains bindings vocabulary trees' (.error failure, s') := by
  have hall {earlier : List (Expr α)} (h : ∀ e ∈ earlier, e.fault? bindings vocabulary = none) :
      ∀ e ∈ nodes ++ earlier, e.fault? bindings vocabulary = none :=
    List.forall_mem_append.mpr ⟨hnodes, h⟩
  cases failure with
  | rejected error =>
    obtain ⟨finished, ds', ⟨earlier, node, h, hearlier, hnode⟩, heval⟩ := h
    refine ⟨front ++ finished, ds ++ ds', ⟨_, node, hmeets h, hall hearlier, hnode⟩, ?_⟩
    rw [evaluateAll_append hfront, heval]
    rfl
  | outOfRange =>
    obtain ⟨earlier, finished, op, operands, ds', name, d, h, hearlier, hnode, heval, hread⟩ := h
    refine ⟨_, front ++ finished, op, operands, ds ++ ds', name, d, hmeets h, hall hearlier, hnode,
      ?_, hread⟩
    rw [List.append_assoc, evaluateAll_append hfront, heval]
    rfl

theorem explains_single {d : Nat} (htree : s.evaluateExpr bindings vocabulary tree = (.ok d, s'))
    (h : ∀ e ∈ tree.preorder, e.fault? bindings vocabulary = none) :
    s.Explains bindings vocabulary [tree] (s.evaluateAll bindings vocabulary [tree]) := by
  rw [evaluateAll_single, htree]
  rw [← List.append_nil tree.preorder] at h
  exact h

end EvaluateAll

variable [LawfulScalar α] {levels : Nat} {bindings : Bindings} {vocabulary : Vocabulary}
  {s s' : Store α} {tree : Expr α} {trees : List (Expr α)} {ds : List Nat}

theorem WellFormed.evaluateAll (hs : s.WellFormed levels) (bindings : Bindings)
    (vocabulary : Vocabulary) (trees : List (Expr α)) :
    Keeps levels s (s.evaluateAll bindings vocabulary trees).2 := by
  fun_induction Store.evaluateAll s bindings vocabulary trees with
  | case1 s => exact hs.keeps
  | case2 s tree trees d s₁ htree ds s₂ htrees ih =>
    rw [htrees] at ih
    have hkeeps := hs.keeps_of_evaluateExpr htree
    exact hkeeps.trans (ih hkeeps.wellFormed)
  | case3 s tree trees d s₁ htree failure s₂ htrees ih =>
    rw [htrees] at ih
    have hkeeps := hs.keeps_of_evaluateExpr htree
    exact hkeeps.trans (ih hkeeps.wellFormed)
  | case4 s tree trees failure s₁ htree => exact hs.keeps_of_evaluateExpr htree

theorem WellFormed.keeps_of_evaluateAll (hs : s.WellFormed levels)
    {result : Except Failure (List Nat)}
    (h : s.evaluateAll bindings vocabulary trees = (result, s')) : Keeps levels s s' := by
  have hkeeps := hs.evaluateAll bindings vocabulary trees
  rwa [h] at hkeeps

/-- The diagram of a tree is in the table, unless the tree is a name that is bound to another
number. -/
theorem WellFormed.evaluateExpr_lt (hs : s.WellFormed levels) {d : Nat}
    (h : s.evaluateExpr bindings vocabulary tree = (.ok d, s')) :
    d < s'.table.size ∨ ∃ name, tree = .variable name ∧ bindings[name]? = some d := by
  cases tree with
  | literal x =>
    rw [Store.evaluateExpr] at h
    cases h
    exact .inl (hs.table.terminal x).lt_size
  | «variable» name =>
    rw [Store.evaluateExpr] at h
    split at h
    next hname => cases h; exact .inr ⟨name, rfl, hname⟩
    next => cases h
  | apply op operands =>
    left
    cases hfault : (Expr.apply op operands).fault? bindings vocabulary with
    | some error => rw [evaluateExpr_of_fault? hfault] at h; cases h
    | none =>
      rcases hoperands : s.evaluateAll bindings vocabulary operands with ⟨failure | ds, s₁⟩
      · rw [evaluateExpr_of_operands_error hfault hoperands] at h
        cases h
      · obtain ⟨c, -, hcombine⟩ := exists_evaluateExpr_eq_combine hfault hoperands
        rw [hcombine] at h
        by_cases hc : c.InRange s₁.table.size
        · obtain ⟨r, s₂, heq, hr, -⟩ :=
            (hs.keeps_of_evaluateAll hoperands).wellFormed.combine_eq hc
          cases heq.symm.trans h
          exact hr
        · rw [combine_of_not_inRange hc] at h
          cases h

theorem WellFormed.evaluateAll_lt (hs : s.WellFormed levels)
    (h : s.evaluateAll bindings vocabulary trees = (.ok ds, s')) {d : Nat} (hd : d ∈ ds) :
    d < s'.table.size ∨ ∃ name, .variable name ∈ trees ∧ bindings[name]? = some d := by
  induction trees generalizing s ds with
  | nil => cases h; cases hd
  | cons tree trees ih =>
    obtain ⟨r, s₁, ds', htree, htrees, rfl⟩ := of_evaluateAll_cons h
    have hs₁ := (hs.keeps_of_evaluateExpr htree).wellFormed
    rcases List.mem_cons.mp hd with rfl | hd
    · rcases hs.evaluateExpr_lt htree with hlt | ⟨name, rfl, hname⟩
      · exact .inl ((hs₁.keeps_of_evaluateAll htrees).grows.lt hlt)
      · exact .inr ⟨name, List.mem_cons_self, hname⟩
    · rcases ih hs₁ htrees hd with hlt | ⟨name, hmem, hname⟩
      · exact .inl hlt
      · exact .inr ⟨name, List.mem_cons_of_mem tree hmem, hname⟩

omit [LawfulScalar α] in
theorem mem_of_evaluateAll (h : s.evaluateAll bindings vocabulary trees = (.ok ds, s'))
    {name : String} {d : Nat} (hmem : .variable name ∈ trees) (hname : bindings[name]? = some d) :
    d ∈ ds := by
  induction trees generalizing s ds with
  | nil => cases hmem
  | cons tree trees ih =>
    obtain ⟨r, s₁, ds', htree, htrees, rfl⟩ := of_evaluateAll_cons h
    rcases List.mem_cons.mp hmem with rfl | hmem
    · rw [Store.evaluateExpr, hname] at htree
      cases htree
      exact List.mem_cons_self
    · exact List.mem_cons_of_mem r (ih htrees hmem)

/-- Once its operands have their diagrams, an operator reads a number out of range exactly if a name
among the operands is bound to one. -/
theorem WellFormed.call_inRange_iff (hs : s.WellFormed levels)
    (h : s.evaluateAll bindings vocabulary trees = (.ok ds, s')) {operation : Operation} {c : Call}
    (hc : operation.call? ds = some c) :
    ¬c.InRange s'.table.size ↔ ∃ name d,
      .variable name ∈ trees ∧ bindings[name]? = some d ∧ ¬d < s'.table.size := by
  rw [Operation.inRange_of_call? hc, not_forall]
  constructor
  · rintro ⟨d, hd⟩
    obtain ⟨hmem, hlt⟩ := Classical.not_imp.mp hd
    obtain ⟨name, hvariable, hname⟩ := (hs.evaluateAll_lt h hmem).resolve_left hlt
    exact ⟨name, d, hvariable, hname, hlt⟩
  · rintro ⟨name, d, hvariable, hname, hlt⟩
    exact ⟨d, fun hall => hlt (hall (mem_of_evaluateAll h hvariable hname))⟩

mutual

theorem WellFormed.explains_evaluateExpr {s : Store α} (hs : s.WellFormed levels)
    (tree : Expr α) :
    s.Explains bindings vocabulary [tree] (s.evaluateAll bindings vocabulary [tree]) := by
  cases hfault : tree.fault? bindings vocabulary with
  | some error =>
    rw [evaluateAll_cons_error (evaluateExpr_of_fault? hfault)]
    exact ⟨[], [], ⟨[], tree, .root tree [], by simp, hfault⟩, rfl⟩
  | none =>
    cases tree with
    | literal x =>
      have heval : s.evaluateExpr bindings vocabulary (.literal x) =
          (.ok (s.constant x).1, (s.constant x).2) := by
        rw [Store.evaluateExpr]
      exact explains_single heval (by simpa [Expr.preorder] using hfault)
    | «variable» name =>
      cases hname : bindings[name]? with
      | none => simp [Expr.fault?, hname] at hfault
      | some d =>
        have heval : s.evaluateExpr bindings vocabulary (.variable name) = (.ok d, s) := by
          rw [Store.evaluateExpr, hname]
        exact explains_single heval (by simpa [Expr.preorder] using hfault)
    | apply op operands =>
      have hexplains := hs.explains_evaluateAll operands
      rcases hoperands : s.evaluateAll bindings vocabulary operands with ⟨failure | ds, s₁⟩
      · rw [hoperands] at hexplains
        rw [evaluateAll_cons_error (evaluateExpr_of_operands_error hfault hoperands)]
        have hroot : ∀ e ∈ [Expr.apply op operands], e.fault? bindings vocabulary = none := by
          simpa using hfault
        have hfront : s.evaluateAll bindings vocabulary [] = (.ok [], s) := rfl
        exact hexplains.within (fun h => h.operand []) hroot hfront
      · rw [hoperands] at hexplains
        obtain ⟨c, hc, hcombine⟩ := exists_evaluateExpr_eq_combine hfault hoperands
        by_cases hrange : c.InRange s₁.table.size
        · obtain ⟨d, s₂, heq, -⟩ :=
            (hs.keeps_of_evaluateAll hoperands).wellFormed.combine_eq hrange
          refine explains_single (hcombine.trans heq) ?_
          rw [Expr.preorder]
          exact List.forall_mem_cons.mpr ⟨hfault, hexplains⟩
        · obtain ⟨name, d, hvariable, hname, hlt⟩ := (hs.call_inRange_iff hoperands hc).mp hrange
          rw [evaluateAll_cons_error (hcombine.trans (combine_of_not_inRange hrange))]
          exact ⟨[], [], op, operands, ds, name, d, .root _ [], by simp, hfault, hoperands,
            hvariable, hname, hlt⟩

/-- Evaluation from left to right comes to the first fault, or before that to a number out of range,
or there is no fault. -/
theorem WellFormed.explains_evaluateAll {s : Store α} (hs : s.WellFormed levels)
    (trees : List (Expr α)) :
    s.Explains bindings vocabulary trees (s.evaluateAll bindings vocabulary trees) := by
  cases trees with
  | nil =>
    rw [Store.evaluateAll, Explains, Expr.preorderAll]
    exact List.forall_mem_nil _
  | cons tree trees =>
    have hfirst := hs.explains_evaluateExpr tree
    rw [evaluateAll_single] at hfirst
    rcases htree : s.evaluateExpr bindings vocabulary tree with ⟨failure | d, s₁⟩
    · rw [htree] at hfirst
      rw [evaluateAll_cons_error htree]
      have hfront : s.evaluateAll bindings vocabulary [] = (.ok [], s) := rfl
      exact hfirst.within (fun h => h.append trees) (List.forall_mem_nil _) hfront
    · rw [htree] at hfirst
      have hfaultless : ∀ e ∈ tree.preorder, e.fault? bindings vocabulary = none := by
        rw [← List.append_nil tree.preorder]
        exact hfirst
      have hfront : s.evaluateAll bindings vocabulary [tree] = (.ok [d], s₁) := by
        rw [evaluateAll_single, htree]
        rfl
      have hrest := (hs.keeps_of_evaluateExpr htree).wellFormed.explains_evaluateAll trees
      rw [evaluateAll_cons htree]
      rcases htrees : s₁.evaluateAll bindings vocabulary trees with ⟨failure | ds, s₂⟩
      · rw [htrees] at hrest
        exact hrest.within (fun h => h.later tree) hfaultless hfront
      · rw [htrees] at hrest
        rw [Explains, Expr.preorderAll, List.forall_mem_append]
        exact ⟨hfaultless, hrest⟩

end

variable {e : Expr α} {error : CompileError} {finished : List (Expr α)}

/-- The trees that are complete before the first fault have no fault themselves. -/
theorem WellFormed.evaluateAll_ne_rejected (hs : s.WellFormed levels)
    (h : Expr.FailsFirst bindings vocabulary trees finished error) (error' : CompileError) :
    (s.evaluateAll bindings vocabulary finished).1 ≠ .error (.rejected error') := by
  intro hrejected
  have hexplains : s.Explains bindings vocabulary finished _ := hs.explains_evaluateAll finished
  rcases heval : s.evaluateAll bindings vocabulary finished with ⟨failure | ds, s'⟩
  · rw [heval] at hrejected hexplains
    cases hrejected
    obtain ⟨earlier, _, hmeets, hearlier, -⟩ := h
    obtain ⟨_, _, ⟨_, node, hmeets', -, hnode⟩, -⟩ := hexplains
    obtain ⟨rest, hrest⟩ := hmeets'.preorderAll_eq
    have hmem : node ∈ Expr.preorderAll finished := by simp [hrest]
    rw [hearlier node (hmeets.mem_earlier hmem)] at hnode
    cases hnode
  · rw [heval] at hrejected
    cases hrejected

structure LeftToRight (s : Store α) (bindings : Bindings) (vocabulary : Vocabulary) (e : Expr α) :
    Prop where
  /-- The first fault is that of the first node in preorder that has one. -/
  exists_failsFirst_iff (error : CompileError) :
    (∃ finished, Expr.FailsFirst bindings vocabulary [e] finished error) ↔
      e.preorder.findSome? (Expr.fault? bindings vocabulary) = some error
  /-- What is behind the first fault does not matter, and what is in the store then was put there by
  the trees that were complete before. -/
  of_failsFirst {finished : List (Expr α)} {error : CompileError}
    (h : Expr.FailsFirst bindings vocabulary [e] finished error) :
    (∃ ds s', s.evaluateAll bindings vocabulary finished = (.ok ds, s') ∧
        s.evaluateExpr bindings vocabulary e = (.error (.rejected error), s')) ∨
      ∃ s', s.evaluateAll bindings vocabulary finished = (.error .outOfRange, s') ∧
        s.evaluateExpr bindings vocabulary e = (.error .outOfRange, s')
  rejected_iff {error : CompileError} {s' : Store α} :
    s.evaluateExpr bindings vocabulary e = (.error (.rejected error), s') ↔
      ∃ finished ds, Expr.FailsFirst bindings vocabulary [e] finished error ∧
        s.evaluateAll bindings vocabulary finished = (.ok ds, s')
  outOfRange_iff {s' : Store α} :
    s.evaluateExpr bindings vocabulary e = (.error .outOfRange, s') ↔
      s.ReadsOutOfRange bindings vocabulary [e] s'

namespace WellFormed

theorem of_failsFirst (hs : s.WellFormed levels)
    (h : Expr.FailsFirst bindings vocabulary [e] finished error) :
    (∃ ds s', s.evaluateAll bindings vocabulary finished = (.ok ds, s') ∧
        s.evaluateExpr bindings vocabulary e = (.error (.rejected error), s')) ∨
      ∃ s', s.evaluateAll bindings vocabulary finished = (.error .outOfRange, s') ∧
        s.evaluateExpr bindings vocabulary e = (.error .outOfRange, s') := by
  have heval := evaluateExpr_of_failsFirst (s := s) h
  have hne := hs.evaluateAll_ne_rejected h
  rcases hfinished : s.evaluateAll bindings vocabulary finished with ⟨failure | ds, s'⟩
  · rw [hfinished] at heval hne
    cases failure with
    | rejected error' => exact absurd rfl (hne error')
    | outOfRange => exact .inr ⟨s', rfl, heval⟩
  · rw [hfinished] at heval
    exact .inl ⟨ds, s', rfl, heval⟩

theorem rejected_iff (hs : s.WellFormed levels) :
    s.evaluateExpr bindings vocabulary e = (.error (.rejected error), s') ↔
      ∃ finished ds, Expr.FailsFirst bindings vocabulary [e] finished error ∧
        s.evaluateAll bindings vocabulary finished = (.ok ds, s') := by
  constructor
  · intro h
    have hexplains : s.Explains bindings vocabulary [e] _ := hs.explains_evaluateAll [e]
    rw [evaluateAll_single_error.mpr h] at hexplains
    exact hexplains
  · rintro ⟨finished, ds, hfails, heval⟩
    rw [evaluateExpr_of_failsFirst hfails, heval]

theorem outOfRange_iff (hs : s.WellFormed levels) :
    s.evaluateExpr bindings vocabulary e = (.error .outOfRange, s') ↔
      s.ReadsOutOfRange bindings vocabulary [e] s' := by
  constructor
  · intro h
    have hexplains : s.Explains bindings vocabulary [e] _ := hs.explains_evaluateAll [e]
    rw [evaluateAll_single_error.mpr h] at hexplains
    exact hexplains
  · rintro ⟨earlier, finished, op, operands, ds, name, d, hmeets, hearlier, hnode, heval, hread⟩
    refine evaluateAll_single_error.mp (evaluateAll_of_meets hmeets hearlier ?_)
    obtain ⟨ds₁, s₁, ds₂, hfinished, hoperands, -⟩ := of_evaluateAll_append heval
    have hs₁ := (hs.keeps_of_evaluateAll hfinished).wellFormed
    obtain ⟨c, hc, hcombine⟩ := exists_evaluateExpr_eq_combine hnode hoperands
    have hrange := (hs₁.call_inRange_iff hoperands hc).mpr ⟨name, d, hread⟩
    rw [evaluateAll_append hfinished, evaluateAll_single, hcombine, combine_of_not_inRange hrange]
    rfl

theorem leftToRight (hs : s.WellFormed levels) (bindings : Bindings) (vocabulary : Vocabulary)
    (e : Expr α) : s.LeftToRight bindings vocabulary e where
  exists_failsFirst_iff error := by
    rw [Expr.exists_failsFirst_iff, Expr.preorderAll, Expr.preorderAll, List.append_nil]
  of_failsFirst h := hs.of_failsFirst h
  rejected_iff := hs.rejected_iff
  outOfRange_iff := hs.outOfRange_iff

end WellFormed

end Store

end DecisionDiagrams
