import DecisionDiagrams.Compile.Text
import DecisionDiagrams.Proofs.Compile.Evaluation
import DecisionDiagrams.Proofs.Diagram.Manager

/-! What names stand for, and that finding it out and compiling an expression keep a manager
well-formed, also when they fail. -/
namespace DecisionDiagrams

namespace Manager

variable {α : Type} {m : Manager α}

/-- An interpretation that gives every name a diagram in the table is restricted to the names. -/
theorem restrict_eq_ok {given : Bindings} {names : List String}
    (h : ∀ name ∈ names, ∃ d, given[name]? = some d ∧ d < m.nodeCount) :
    m.restrict given names =
      .ok (.ofList (names.filterMap fun name => given[name]?.map (name, ·))) := by
  have hmissing : names.filter (fun name => given[name]?.isNone) = [] := by
    refine List.filter_eq_nil_iff.mpr fun name hname => ?_
    obtain ⟨d, hd, -⟩ := h name hname
    simp [hd]
  have hunknown : names.filter (fun name => given[name]?.any fun d => !m.contains d) = [] := by
    refine List.filter_eq_nil_iff.mpr fun name hname => ?_
    obtain ⟨d, hd, hlt⟩ := h name hname
    simp [hd, contains, hlt]
  simp only [restrict, hmissing, hunknown, List.isEmpty_nil, Bool.not_true, Bool.false_eq_true,
    if_false]

variable [Scalar α]

theorem getElem?_restricted (given : Bindings) (names : Std.TreeSet String) {name : String}
    (hname : name ∈ names) {d : Nat} (hd : given[name]? = some d) :
    (Std.TreeMap.ofList
      (names.toList.filterMap fun name => given[name]?.map (name, ·)) : Bindings)[name]? =
      some d := by
  refine Std.TreeMap.getElem?_ofList_of_mem (Std.ReflCmp.compare_self (a := name)) ?_ ?_
  · refine List.pairwise_filterMap.mpr ?_
    refine names.distinct_toList.imp fun hne x hx y hy => ?_
    obtain ⟨_, _, rfl⟩ := Option.map_eq_some_iff.mp hx
    obtain ⟨_, _, rfl⟩ := Option.map_eq_some_iff.mp hy
    exact hne
  · exact List.mem_filterMap.mpr
      ⟨name, Std.TreeSet.mem_toList.mpr hname, by rw [hd]; rfl⟩

theorem resolve_interpretation {given : Bindings} {names : Std.TreeSet String}
    (h : ∀ name ∈ names, ∃ d, given[name]? = some d ∧ d < m.nodeCount) :
    ∃ bindings : Bindings, m.resolve names (.interpretation given) = (.ok bindings, m) ∧
      ∀ name ∈ names, bindings[name]? = given[name]? := by
  have hlist (name : String) (hname : name ∈ names.toList) :=
    h name (Std.TreeSet.mem_toList.mp hname)
  refine ⟨_, by rw [resolve, restrict_eq_ok hlist], fun name hname => ?_⟩
  obtain ⟨d, hd, -⟩ := h name hname
  rw [getElem?_restricted given names hname hd, hd]

namespace WellFormed

variable [LawfulScalar α]

theorem bindVariables (hm : m.WellFormed) (bindings : Bindings) (names : List String) :
    m.Keeps (m.bindVariables bindings names).2 := by
  induction names generalizing m bindings with
  | nil => exact hm.keeps
  | cons name names ih =>
    have hname := hm.indicator name
    exact hname.trans (ih hname.wellFormed _)

theorem resolve (hm : m.WellFormed) (names : Std.TreeSet String) (naming : Naming) :
    m.Keeps (m.resolve names naming).2 := by
  cases naming with
  | interpretation given => exact hm.keeps
  | encoding => exact hm.bindVariables ∅ names.toList

theorem evaluate (hm : m.WellFormed) (bindings : Bindings) (vocabulary : Vocabulary)
    (e : Expr α) : m.Keeps (m.evaluate bindings vocabulary e).2 := by
  have hstore := hm.store.evaluateExpr bindings vocabulary e
  rw [← Store.evaluate_eq] at hstore
  exact hm.with_store hstore

theorem compileExpr (hm : m.WellFormed) (e : Expr α) (naming : Naming) :
    m.Keeps (m.compileExpr e naming).2 := by
  have hresolve := hm.resolve e.names naming
  rw [Manager.compileExpr]
  split
  next heq => rw [heq] at hresolve; exact hresolve
  next heq =>
    rw [heq] at hresolve
    exact hresolve.trans (hresolve.wellFormed.evaluate _ _ e)

theorem compile (hm : m.WellFormed) (text : String) (naming : Naming) :
    m.Keeps (m.compile text naming).2 := by
  rw [Manager.compile]
  split
  next => exact hm.keeps
  next e _ => exact hm.compileExpr e naming

theorem keeps_of_compileExpr (hm : m.WellFormed) {m' : Manager α} {e : Expr α} {naming : Naming}
    {result : Except Failure Nat} (h : m.compileExpr e naming = (result, m')) : m.Keeps m' := by
  have hkeeps := hm.compileExpr e naming
  rwa [h] at hkeeps

theorem keeps_of_compile (hm : m.WellFormed) {m' : Manager α} {text : String} {naming : Naming}
    {result : Except Failure Nat} (h : m.compile text naming = (result, m')) : m.Keeps m' := by
  have hkeeps := hm.compile text naming
  rwa [h] at hkeeps

end WellFormed

end Manager

end DecisionDiagrams
