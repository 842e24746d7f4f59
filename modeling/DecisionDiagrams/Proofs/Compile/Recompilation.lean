import DecisionDiagrams.Proofs.Compile.Outcome
import DecisionDiagrams.Proofs.Grammar.Language

/-! Compiling an expression again. What a compilation came to is in the table and in the memory
from then on, so that the next one finds all of it there and changes nothing. -/
namespace DecisionDiagrams

namespace Store

variable {α : Type} [Scalar α] [LawfulScalar α] {levels levels' : Nat} {s s₁ s₂ : Store α}

theorem WellFormed.constant_again (hs : s.WellFormed levels) (x : α)
    (hkeeps : (s.constant x).2.Keeps levels' s₂) : s₂.constant x = ((s.constant x).1, s₂) := by
  have hputs := hs.table.terminal x
  have hnode := (hkeeps.grows.node hputs.lt_size).trans hputs.node
  have hterminal := hkeeps.wellFormed.table.terminal_of_node (hkeeps.grows.lt hputs.lt_size) hnode
  rw [Store.constant, hterminal]
  rfl

theorem WellFormed.combine_again (hs : s.WellFormed levels) {c : Call} {d : Nat}
    (h : s.combine c = (.ok d, s₁)) (hkeeps : s₁.Keeps levels' s₂) :
    s₂.combine c = (.ok d, s₂) := by
  by_cases hc : c.InRange s.table.size
  · rw [Store.combine, perform?_of_inRange hc] at h
    obtain ⟨hresult, rfl⟩ := Prod.mk.inj h
    have hknows := (hs.knows_perform hc).keeps hkeeps
    rw [Store.combine, perform?_of_inRange hknows.inRange, hknows.perform hkeeps.wellFormed]
    exact congrArg (·, s₂) hresult
  · rw [Store.combine, perform?_of_not_inRange hc] at h
    cases h

/-- Each step of an evaluation that came to a diagram comes to the same the next time, since the
store that it left behind is kept by the steps after it. -/
theorem WellFormed.evaluateExpr_again (hs : s.WellFormed levels) {bindings : Bindings}
    {vocabulary : Vocabulary} {e : Expr α} {d : Nat}
    (h : s.evaluateExpr bindings vocabulary e = (.ok d, s₁)) (hkeeps : s₁.Keeps levels' s₂) :
    s₂.evaluateExpr bindings vocabulary e = (.ok d, s₂) := by
  fun_induction Store.evaluateExpr s bindings vocabulary e generalizing d s₁ with
  | case1 s x =>
    obtain ⟨hresult, rfl⟩ := Prod.mk.inj h
    rw [Store.evaluateExpr, hs.constant_again x hkeeps]
    exact congrArg (·, s₂) hresult
  | case2 s name d' hname =>
    rw [Store.evaluateExpr, hname]
    exact congrArg (·, s₂) (congrArg Prod.fst h)
  | case3 => cases h
  | case4 => cases h
  | case5 => cases h
  | case6 s op operands hop op' e hone d' s' heval ih =>
    have hs' := hs.keeps_of_evaluateExpr heval
    have hcombine := hs'.wellFormed.keeps_of_combine h
    have hagain := ih hs heval (hcombine.trans hkeeps)
    simp only [evaluateExpr_apply hop, hone, hagain]
    exact hs'.wellFormed.combine_again h hkeeps
  | case7 => cases h
  | case8 s op operands hop op' e e' htwo d' s' heval d'' s'' heval' ih ih' =>
    have hs' := hs.keeps_of_evaluateExpr heval
    have hs'' := hs'.wellFormed.keeps_of_evaluateExpr heval'
    have hcombine := hs''.wellFormed.keeps_of_combine h
    have hagain := ih hs heval ((hs''.trans hcombine).trans hkeeps)
    have hagain' := ih' hs'.wellFormed heval' (hcombine.trans hkeeps)
    simp only [evaluateExpr_apply hop, htwo, hagain, hagain']
    exact hs''.wellFormed.combine_again h hkeeps
  | case9 => cases h
  | case10 => cases h

end Store

namespace Manager

variable {α : Type} {m m₁ m₂ : Manager α} {e : Expr α}

theorem restrict_again (h : m.table.size ≤ m₂.table.size) {given bindings : Bindings}
    (hrestrict : m.restrict given e.names.toList = .ok bindings) :
    m₂.restrict given e.names.toList = .ok bindings := by
  have hgiven (name : String) (hname : name ∈ e.names.toList) :
      ∃ d, given[name]? = some d ∧ d < m.nodeCount := by
    have hmentions := ((lists_names e).mem_iff name).mp hname
    obtain ⟨d, hd, hcontains⟩ := interprets_of_restrict hrestrict name hmentions
    exact ⟨d, hd, lt_of_contains hcontains⟩
  rw [← hrestrict, restrict_eq_ok hgiven]
  apply restrict_eq_ok
  intro name hname
  obtain ⟨d, hd, hlt⟩ := hgiven name hname
  exact ⟨d, hd, hlt.trans_le h⟩

variable [Scalar α]

theorem IsIndicator.indicator_eq [LawfulScalar α] (hm : m.WellFormed) {name : String} {d : Nat}
    (h : m.IsIndicator name d) : m.indicator name = (d, m) := by
  obtain ⟨level, hlevel, hnode⟩ := h.node
  have hbranch : m.store.table.branch level Table.zero Table.one = (d, m.store.table) :=
    hm.table.branch_of_node h.lt_size hnode
  simp only [indicator, Variables.intern_of_level? hlevel, hbranch]

namespace WellFormed

variable [LawfulScalar α]

theorem bindVariables_again (hm : m.WellFormed) {bindings : Bindings} {names : List String}
    (hkeeps : (m.bindVariables bindings names).2.Keeps m₂) :
    m₂.bindVariables bindings names = ((m.bindVariables bindings names).1, m₂) := by
  induction names generalizing m bindings with
  | nil => rfl
  | cons name names ih =>
    have hname := hm.indicator name
    have hrest := (hname.wellFormed.bindVariables _ names).trans hkeeps
    have hindicator := (hm.isIndicator_indicator name).keeps hname.wellFormed hrest
    rw [Manager.bindVariables, hindicator.indicator_eq hrest.wellFormed]
    exact ih hname.wellFormed hkeeps

theorem resolve_again (hm : m.WellFormed) {naming : Naming} {bindings : Bindings}
    (h : m.resolve e.names naming = (.ok bindings, m₁)) (hkeeps : m₁.Keeps m₂) :
    m₂.resolve e.names naming = (.ok bindings, m₂) := by
  cases naming with
  | interpretation given =>
    obtain ⟨hrestrict, rfl⟩ := Prod.mk.inj h
    rw [Manager.resolve, restrict_again hkeeps.grows.table.size_le hrestrict]
  | encoding =>
    obtain ⟨hbindings, rfl⟩ := Prod.mk.inj h
    rw [Manager.resolve, hm.bindVariables_again hkeeps]
    exact congrArg (·, m₂) hbindings

theorem evaluate_again (hm : m.WellFormed) {bindings : Bindings} {vocabulary : Vocabulary}
    {d : Nat} (h : m.evaluate bindings vocabulary e = (.ok d, m₁)) (hkeeps : m₁.Keeps m₂) :
    m₂.evaluate bindings vocabulary e = (.ok d, m₂) := by
  obtain ⟨hresult, rfl⟩ := Prod.mk.inj h
  have heval : m.store.evaluateExpr bindings vocabulary e =
      (.ok d, (m.store.evaluate bindings vocabulary e).2) := by
    rw [← Store.evaluate_eq]
    exact congrArg (·, _) hresult
  have hagain := hm.store.evaluateExpr_again heval hkeeps.store
  simp only [Manager.evaluate, Store.evaluate_eq, hagain]

theorem compileExpr_again (hm : m.WellFormed) {naming : Naming} {d : Nat}
    (h : m.compileExpr e naming = (.ok d, m₁)) (hkeeps : m₁.Keeps m₂) :
    m₂.compileExpr e naming = (.ok d, m₂) := by
  have hresolved := hm.resolve e.names naming
  rw [Manager.compileExpr] at h
  split at h
  next => cases h
  next bindings m' hresolve =>
    rw [hresolve] at hresolved
    have hevaluated := hresolved.wellFormed.evaluate bindings naming.vocabulary e
    rw [h] at hevaluated
    rw [Manager.compileExpr, hm.resolve_again hresolve (hevaluated.trans hkeeps)]
    exact hresolved.wellFormed.evaluate_again h hkeeps

end WellFormed

inductive Agree (e : Expr α) : Naming → Naming → Prop where
  | interpretation {given given' : Bindings}
      (h : ∀ name, e.Mentions name → given[name]? = given'[name]?) :
      Agree e (.interpretation given) (.interpretation given')
  | encoding : Agree e .encoding .encoding

theorem Agree.compileExpr_eq {naming naming' : Naming} (h : Agree e naming naming')
    (m : Manager α) : m.compileExpr e naming = m.compileExpr e naming' := by
  cases h with
  | interpretation h => exact m.compileExpr_congr h
  | encoding => rfl

variable [LawfulScalar α]

theorem WellFormed.compileExpr_later (hm : m.WellFormed) {naming naming' : Naming} {d : Nat}
    {requests : List (Request α)} (hagree : Agree e naming naming')
    (h : m.compileExpr e naming = (.ok d, m₁)) (hrequests : ∀ r ∈ requests, r ≠ .clear) :
    (m₁.afterAll requests).compileExpr e naming' = (.ok d, m₁.afterAll requests) := by
  have hm₁ := (hm.keeps_of_compileExpr h).wellFormed
  rw [← hagree.compileExpr_eq]
  exact hm.compileExpr_again h (hm₁.keeps_afterAll hrequests)

/-- Whatever is asked of a manager after an expression came to a diagram in it, the expression comes
to the same diagram again, and then the manager stays exactly as it is. -/
theorem recompilation_free (hm : m.Reachable) :
    (∀ (e : Expr α) (naming naming' : Naming) (d : Nat) (m' : Manager α)
      (requests : List (Request α)), Agree e naming naming' →
      m.compileExpr e naming = (.ok d, m') → (∀ r ∈ requests, r ≠ .clear) →
      (m'.afterAll requests).compileExpr e naming' = (.ok d, m'.afterAll requests)) ∧
    ∀ (text : String) (naming : Naming) (d : Nat) (m' : Manager α),
      m.compile text naming = (.ok d, m') → ∃ e : Expr α, parse text = .ok e ∧
        ∀ (naming' : Naming) (requests : List (Request α)), Agree e naming naming' →
          (∀ r ∈ requests, r ≠ .clear) →
          (m'.afterAll requests).compile text naming' = (.ok d, m'.afterAll requests) := by
  constructor
  · intro e naming naming' d m' requests hagree h hrequests
    exact hm.wellFormed.compileExpr_later hagree h hrequests
  · intro text naming d m' h
    obtain ⟨e, hparse, hcompile⟩ := exists_parse_of_compile h
    refine ⟨e, hparse, ?_⟩
    intro naming' requests hagree hrequests
    rw [compile_of_parse hparse]
    exact hm.wellFormed.compileExpr_later hagree hcompile hrequests

theorem recompilation_free_of_negation :
    let m := ((initial : Manager Float).indicator "q").2
    let e : Expr Float := .apply .not [.variable "p"]
    let given := (∅ : Bindings).insert "p" Table.one
    let requests : List (Request Float) := [.constant 2, .encode "p || r", .combine .add 1 2]
    m.Reachable ∧
      (∃ d m', m.compileExpr e (.interpretation given) = (.ok d, m') ∧
        (m'.afterAll requests).compileExpr e (.interpretation (given.insert "q" 7)) =
          (.ok d, m'.afterAll requests)) ∧
      ∃ d m', m.compile "!p" .encoding = (.ok d, m') ∧
        (m'.afterAll requests).compile "!p" .encoding = (.ok d, m'.afterAll requests) := by
  intro m e given requests
  have hm : m.Reachable := ⟨[.indicator "q"], rfl⟩
  have hrequests : ∀ r ∈ requests, r ≠ .clear := by simp [requests]
  have harity : e.ArityCorrect := .apply rfl (by simp [Expr.ArityCorrect.variable])
  have hmentions (name : String) (h : e.Mentions name) : "p" = name := by
    simpa [e, Expr.mentions_apply] using h
  have hlex : lex "!p" = ⟨[⟨⟨1, 1⟩, .symbol .bang⟩, ⟨⟨1, 2⟩, .name ['p']⟩], ⟨1, 3⟩⟩ := by
    decide +kernel
  have hparse : parse "!p" = .ok e := (parse_eq_of_lex (by decide +kernel) hlex).trans rfl
  obtain ⟨htree, htext⟩ := recompilation_free hm
  have hagree : Agree e (.interpretation given) (.interpretation (given.insert "q" 7)) := by
    apply Agree.interpretation
    intro name hname
    obtain rfl := hmentions name hname
    exact (Std.TreeMap.getElem?_insert.trans (if_neg (by decide))).symm
  have hgiven : m.Interprets given e := by
    intro name hname
    obtain rfl := hmentions name hname
    exact ⟨Table.one, by simp [given], decide_eq_true hm.wellFormed.table.one_lt_size⟩
  obtain ⟨d, m', hcompile, -⟩ := hm.wellFormed.compileExpr_denotes harity hgiven
  obtain ⟨d', m'', hencode, -⟩ := hm.wellFormed.compileExpr_encoding harity
  rw [← compile_of_parse hparse] at hencode
  obtain ⟨_, -, hagain⟩ := htext "!p" .encoding d' m'' hencode
  exact ⟨hm, ⟨d, m', hcompile, htree e _ _ d m' requests hagree hcompile hrequests⟩,
    d', m'', hencode, hagain .encoding requests .encoding hrequests⟩

end Manager

end DecisionDiagrams
