import DecisionDiagrams.Proofs.Compile.Denotation
import DecisionDiagrams.Proofs.Compile.Naming
import DecisionDiagrams.Proofs.Expr.Preorder

/-! Formulas over variables. Every name is bound to the indicator of its variable, and a formula
has a diagram unless it uses an operator that is not logical. -/
namespace DecisionDiagrams

open Scalar

namespace Variables

variable {v v' : Variables}

/-- A name keeps its level. -/
theorem Grows.level? (h : v.Grows v') (hv : v.WellFormed) (hv' : v'.WellFormed) {name : String}
    {level : Nat} (hlevel : v.level? name = some level) : v'.level? name = some level := by
  have hname := (hv name level).mp hlevel
  exact (hv' name level).mpr ((h.name? (lt_size_of_name? hname)).trans hname)

end Variables

theorem Expr.allows_of_find?_eq_none {α : Type} (vocabulary : Vocabulary) {e : Expr α}
    (h : e.operators.find? (fun op => !vocabulary.allows op) = none) {op : Operator}
    (hop : e.Uses op) : vocabulary.allows op = true := by
  simpa using List.find?_eq_none.mp h op (mem_operators_of_uses hop)

namespace Store

variable {α : Type} [Scalar α]

theorem evaluateExpr_not_allowed {s : Store α} {bindings : Bindings} {vocabulary : Vocabulary}
    {op : Operator} (h : vocabulary.allows op = false) (operands : List (Expr α)) :
    s.evaluateExpr bindings vocabulary (.apply op operands) =
      (.error (.rejected (.operatorNotAllowed op)), s) := by
  rw [evaluateExpr, if_pos (by simp [h])]

variable [LawfulScalar α] {levels : Nat} {s : Store α} {env : Environment α}

/-- The evaluation of a tree whose operators have their operands, and whose names are bound, ends at
the first operator in preorder that is not allowed. -/
theorem WellFormed.evaluateExpr_first (hs : s.WellFormed levels) {bindings : Bindings}
    (vocabulary : Vocabulary) {e : Expr α} (harity : e.ArityCorrect)
    (hbinds : s.table.Binds env bindings e) {op : Operator}
    (h : e.operators.find? (fun op => !vocabulary.allows op) = some op) :
    ∃ s', s.evaluateExpr bindings vocabulary e =
      (.error (.rejected (.operatorNotAllowed op)), s') := by
  induction harity generalizing s with
  | literal x => cases h
  | «variable» name => cases h
  | @apply root operands hlength hoperands ih =>
    cases hroot : vocabulary.allows root with
    | false =>
      rw [Expr.operators, List.find?_cons_of_pos (by simp [hroot])] at h
      cases h
      exact ⟨s, evaluateExpr_not_allowed hroot operands⟩
    | true =>
      have hallows : ¬(!vocabulary.allows root) = true := by simp [hroot]
      rw [Expr.operators,
        List.find?_cons_of_neg (p := fun op => !vocabulary.allows op) hallows] at h
      rcases Operator.one_or_two_operands hlength with
        ⟨op', e, -, rfl, hone⟩ | ⟨op', e, e', -, rfl, htwo⟩
      · have he : e ∈ [e] := List.mem_singleton_self e
        rw [Expr.operatorsAll, Expr.operatorsAll, List.append_nil] at h
        obtain ⟨s', heval⟩ := ih e he hs (hbinds.operand he) h
        exact ⟨s', by simp only [evaluateExpr_apply hallows, hone, heval]⟩
      · have he : e ∈ [e, e'] := List.mem_cons_self
        have he' : e' ∈ [e, e'] := List.mem_cons_of_mem e (List.mem_singleton_self e')
        rw [Expr.operatorsAll, Expr.operatorsAll, Expr.operatorsAll, List.append_nil,
          List.find?_append] at h
        cases hfirst : e.operators.find? (fun op => !vocabulary.allows op) with
        | some op'' =>
          rw [hfirst] at h
          cases h
          obtain ⟨s', heval⟩ := ih e he hs (hbinds.operand he) hfirst
          exact ⟨s', by simp only [evaluateExpr_apply hallows, htwo, heval]⟩
        | none =>
          -- The left operand has a diagram, so the first such operator is in the right one.
          rw [hfirst, Option.none_or] at h
          obtain ⟨d, s', heval, -⟩ := hs.evaluateExpr_denotes vocabulary (hoperands e he)
            (fun _ => Expr.allows_of_find?_eq_none vocabulary hfirst) (hbinds.operand he)
          have hs' := hs.keeps_of_evaluateExpr heval
          obtain ⟨s'', heval'⟩ := ih e' he' hs'.wellFormed
            ((hbinds.operand he').grows hs'.grows) h
          exact ⟨s'', by simp only [evaluateExpr_apply hallows, htwo, heval, heval']⟩

end Store

namespace Manager

variable {α : Type} [Scalar α] {m m' : Manager α}

theorem Keeps.level? (hm : m.WellFormed) (h : m.Keeps m') {name : String} {level : Nat}
    (hlevel : m.vars.level? name = some level) : m'.vars.level? name = some level :=
  h.grows.vars.level? hm.vars h.wellFormed.vars hlevel

structure IsIndicator (m : Manager α) (name : String) (d : Nat) : Prop where
  lt_size : d < m.table.size
  node : ∃ level, m.vars.level? name = some level ∧
    m.table.node d = .branch level Table.zero Table.one

/-- The names that are variables are worth one where they are true and zero elsewhere. -/
def truthValues (m : Manager α) : Environment α := fun truth name =>
  (m.vars.level? name).map fun level => ofBool (truth level)

theorem IsIndicator.denotes (hm : m.WellFormed) {name : String} {d : Nat}
    (h : m.IsIndicator name d) : m.table.Denotes m.truthValues (.variable name) d where
  lt_size := h.lt_size
  value truth := by
    obtain ⟨level, hlevel, hnode⟩ := h.node
    refine ⟨ofBool (truth level), by rw [Expr.value?, truthValues, hlevel]; rfl, .inl ?_⟩
    rw [Table.value_branch hnode, Table.value_terminal hm.table.node_zero,
      Table.value_terminal hm.table.node_one]
    rfl

theorem IsIndicator.keeps (hm : m.WellFormed) (hkeeps : m.Keeps m') {name : String} {d : Nat}
    (h : m.IsIndicator name d) : m'.IsIndicator name d where
  lt_size := hkeeps.grows.table.lt h.lt_size
  node := by
    obtain ⟨level, hlevel, hnode⟩ := h.node
    exact ⟨level, hkeeps.level? hm hlevel,
      (hkeeps.grows.table.node h.lt_size).trans hnode⟩

/-- Every name that is bound is bound to the indicator of its variable. -/
def BindsIndicators (m : Manager α) (bindings : Bindings) : Prop :=
  ∀ name d, bindings[name]? = some d → m.IsIndicator name d

theorem compile_of_parse {text : String} {e : Expr α} (h : parse text = .ok e) (m : Manager α)
    (naming : Naming) : m.compile text naming = m.compileExpr e naming := by
  rw [Manager.compile, h]

/-- A text that compiles to a diagram is the text of an expression. -/
theorem exists_parse_of_compile {text : String} {naming : Naming} {d : Nat}
    (h : m.compile text naming = (.ok d, m')) :
    ∃ e : Expr α, parse text = .ok e ∧ m.compileExpr e naming = (.ok d, m') := by
  cases hparse : (parse text : Except SyntaxError (Expr α)) with
  | error error =>
    rw [compile, hparse] at h
    cases h
  | ok e =>
    rw [compile_of_parse hparse] at h
    exact ⟨e, rfl, h⟩

theorem isSome_bindVariables {name : String} {names : List String} {bindings : Bindings}
    (h : name ∈ names ∨ bindings[name]?.isSome) :
    (m.bindVariables bindings names).1[name]?.isSome := by
  induction names generalizing m bindings with
  | nil => exact h.resolve_left List.not_mem_nil
  | cons name' names ih =>
    refine ih ?_
    rw [List.mem_cons] at h
    by_cases hname : name' = name
    · subst hname
      exact .inr (by simp)
    · refine (h.imp_left fun h => h.resolve_left (Ne.symm hname)).imp_right fun h => ?_
      rwa [Std.TreeMap.getElem?_insert, if_neg (by simpa using hname)]

namespace WellFormed

variable [LawfulScalar α]

theorem isIndicator_indicator (hm : m.WellFormed) (name : String) :
    (m.indicator name).2.IsIndicator name (m.indicator name).1 where
  lt_size := (hm.puts_indicator name).lt_size
  node := ⟨_, (hm.vars.intern name).2, (hm.puts_indicator name).node⟩

theorem bindsIndicators_bindVariables (hm : m.WellFormed) {bindings : Bindings}
    (h : m.BindsIndicators bindings) (names : List String) :
    (m.bindVariables bindings names).2.BindsIndicators (m.bindVariables bindings names).1 := by
  induction names generalizing m bindings with
  | nil => exact h
  | cons name names ih =>
    have hkeeps := hm.indicator name
    refine ih hkeeps.wellFormed fun name' d hd => ?_
    rw [Std.TreeMap.getElem?_insert] at hd
    split at hd
    next hname =>
      cases hd
      obtain rfl : name = name' := Std.LawfulEqCmp.eq_of_compare hname
      exact hm.isIndicator_indicator name
    next => exact (h name' d hd).keeps hm hkeeps

/-- An expression in which every name is a variable has its names bound. -/
theorem resolve_encoding (hm : m.WellFormed) (e : Expr α) :
    ∃ bindings m', m.resolve e.names .encoding = (.ok bindings, m') ∧ m.Keeps m' ∧
      m'.table.Binds m'.truthValues bindings e := by
  have hkeeps := hm.bindVariables ∅ e.names.toList
  refine ⟨_, _, rfl, hkeeps, fun name hname => ?_⟩
  have hmem : name ∈ e.names.toList :=
    Std.TreeSet.mem_toList.mpr (Expr.mem_names.mpr hname)
  obtain ⟨d, hd⟩ := Option.isSome_iff_exists.mp (isSome_bindVariables (m := m) (.inl hmem))
  have hempty : m.BindsIndicators ∅ := by
    intro name d hd
    simp at hd
  have hbinds := hm.bindsIndicators_bindVariables hempty e.names.toList
  exact ⟨d, hd, (hbinds name d hd).denotes hkeeps.wellFormed⟩

/-- A formula over its variables has a diagram, or a first operator that is not logical. -/
theorem compileExpr_encoding (hm : m.WellFormed) {e : Expr α} (harity : e.ArityCorrect) :
    match e.operators.find? (fun op => !op.isLogical) with
    | some op => ∃ m', m.compileExpr e .encoding =
        (.error (.rejected (.operatorNotAllowed op)), m')
    | none => ∃ d m', m.compileExpr e .encoding = (.ok d, m') ∧ m'.WellFormed ∧
        (∀ name, e.Mentions name → (m'.vars.level? name).isSome) ∧
        m'.table.Denotes m'.truthValues e d := by
  obtain ⟨bindings, m', hresolve, hkeeps, hbinds⟩ := hm.resolve_encoding e
  have hm' := hkeeps.wellFormed
  have hcompile : m.compileExpr e .encoding = m'.evaluate bindings .propositional e := by
    rw [Manager.compileExpr, hresolve]
    rfl
  rw [hcompile, Manager.evaluate, Store.evaluate_eq]
  split
  next op hop =>
    obtain ⟨s, heval⟩ := hm'.store.evaluateExpr_first .propositional harity hbinds hop
    exact ⟨_, by rw [heval]⟩
  next hnone =>
    obtain ⟨d, s, heval, hdenotes⟩ := hm'.store.evaluateExpr_denotes .propositional harity
      (fun _ => Expr.allows_of_find?_eq_none .propositional hnone) hbinds
    have hs := hm'.store.keeps_of_evaluateExpr heval
    refine ⟨d, _, by rw [heval], (hm'.with_store hs).wellFormed, fun name hname => ?_, hdenotes⟩
    obtain ⟨d', -, hd'⟩ := hbinds name hname
    obtain ⟨x, hx, -⟩ := hd'.value fun _ => false
    obtain ⟨level, hlevel, -⟩ := Option.map_eq_some_iff.mp hx
    exact Option.isSome_iff_exists.mpr ⟨level, hlevel⟩

end WellFormed

end Manager

end DecisionDiagrams
