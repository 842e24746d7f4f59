import DecisionDiagrams.Proofs.Compile.Denotation
import DecisionDiagrams.Proofs.Grammar.Arity
import DecisionDiagrams.Proofs.History.Basic
import DecisionDiagrams.Proofs.Scalar.Float

/-! Compiling an expression over given diagrams gives a diagram with the values of the
expression, whatever happened to the manager before. -/
namespace DecisionDiagrams

open Scalar

namespace Manager

variable {α : Type} [Scalar α] {m : Manager α} {given : Bindings} {e : Expr α}

def Interprets (m : Manager α) (given : Bindings) (e : Expr α) : Prop :=
  ∀ name, e.Mentions name → ∃ d, given[name]? = some d ∧ m.contains d = true

def worth (m : Manager α) (given : Bindings) : Environment α := fun truth name =>
  given[name]?.bind fun d => m.table.about d (m.table.value truth d)

/-- The outcome is a diagram whose value under every assignment is that of the expression, where
a name is worth as much as the diagram that is given for it. -/
def CompilesTo (m : Manager α) (given : Bindings) (e : Expr α)
    (outcome : Except Failure Nat × Manager α) : Prop :=
  ∃ d, outcome.1 = .ok d ∧ ∀ a : Assignment, ∃ x y,
    e.value? (fun name => given[name]?.bind (m.value? a)) = some x ∧
      outcome.2.value? a d = some y ∧ Same y x

/-- The names of the expression are found, and nothing else changes. -/
theorem Interprets.exists_resolve (h : m.Interprets given e) :
    ∃ bindings, m.resolve e.names (.interpretation given) = (.ok bindings, m) ∧
      ∀ name, e.Mentions name → bindings[name]? = given[name]? := by
  have hnames (name : String) (hname : name ∈ e.names) :
      ∃ d, given[name]? = some d ∧ d < m.nodeCount := by
    obtain ⟨d, hd, hcontains⟩ := h name (Expr.mem_names.mp hname)
    exact ⟨d, hd, lt_of_contains hcontains⟩
  obtain ⟨bindings, hresolve, hbindings⟩ := resolve_interpretation hnames
  exact ⟨bindings, hresolve, fun name hname => hbindings name (Expr.mem_names.mpr hname)⟩

/-- A diagram is worth as much as it will be later. -/
theorem denotes_worth {later : Manager α} (hgrows : m.table.Grows later.table) {name : String}
    {d : Nat} (h : given[name]? = some d) (hd : m.contains d = true) :
    m.table.Denotes (later.worth given) (.variable name) d := by
  have hlt := lt_of_contains hd
  refine ⟨hlt, fun truth => ⟨m.table.value truth d, ?_, .refl _⟩⟩
  rw [Expr.value?, worth, h, Option.bind_some, Table.about, if_pos (hgrows.lt hlt),
    hgrows.value truth hlt]

theorem Interprets.binds (h : m.Interprets given e) {later : Manager α}
    (hgrows : m.table.Grows later.table) : m.table.Binds (later.worth given) given e := by
  intro name hname
  obtain ⟨d, hd, hcontains⟩ := h name hname
  exact ⟨d, hd, denotes_worth hgrows hd hcontains⟩

variable [LawfulScalar α]

/-- Whatever the names are worth, an expression has a diagram that is worth as much. -/
theorem WellFormed.exists_compileExpr (hm : m.WellFormed) (harity : e.ArityCorrect)
    {env : Environment α} (hbinds : m.table.Binds env given e) :
    ∃ d m', m.compileExpr e (.interpretation given) = (.ok d, m') ∧ m'.table.Denotes env e d := by
  have hgiven : m.Interprets given e := by
    intro name hname
    obtain ⟨d, hd, hdenotes⟩ := hbinds name hname
    exact ⟨d, hd, decide_eq_true hdenotes.lt_size⟩
  obtain ⟨bindings, hresolve, hbindings⟩ := hgiven.exists_resolve
  have hbinds' : m.table.Binds env bindings e := by
    intro name hname
    rw [hbindings name hname]
    exact hbinds name hname
  obtain ⟨d, s, heval, hdenotes⟩ :=
    hm.store.evaluateExpr_denotes .full harity (fun _ _ => rfl) hbinds'
  refine ⟨d, { m with store := s }, ?_, hdenotes⟩
  rw [Manager.compileExpr, hresolve]
  simp only [Manager.evaluate, Naming.vocabulary, Store.evaluate_eq, heval]

theorem WellFormed.compileExpr_denotes (hm : m.WellFormed) (harity : e.ArityCorrect)
    (h : m.Interprets given e) :
    ∃ d m', m.compileExpr e (.interpretation given) = (.ok d, m') ∧
      m'.table.Denotes (m.worth given) e d :=
  hm.exists_compileExpr harity (h.binds (.refl m.table))

theorem WellFormed.compileExpr_compilesTo (hm : m.WellFormed) (harity : e.ArityCorrect)
    (h : m.Interprets given e) :
    m.CompilesTo given e (m.compileExpr e (.interpretation given)) := by
  obtain ⟨d, m', hcompile, hdenotes⟩ := hm.compileExpr_denotes harity h
  rw [hcompile]
  refine ⟨d, rfl, fun a => ?_⟩
  obtain ⟨x, hx, hsame⟩ := hdenotes.value a.truth
  exact ⟨x, m'.table.value a.truth d, hx, value?_of_lt hdenotes.lt_size a, hsame⟩

/-- An expression over given diagrams, as a tree or as a text, compiles to a diagram with the values
of the expression. -/
theorem compilation_preserves_meaning (hm : m.Reachable) :
    (∀ (e : Expr α) (given : Bindings), e.ArityCorrect → m.Interprets given e →
      m.CompilesTo given e (m.compileExpr e (.interpretation given))) ∧
    ∀ (text : String) (e : Expr α) (given : Bindings), parse text = .ok e →
      m.Interprets given e → m.CompilesTo given e (m.compile text (.interpretation given)) := by
  refine ⟨fun e given harity h => hm.wellFormed.compileExpr_compilesTo harity h,
    fun text e given hparse h => ?_⟩
  rw [compile, hparse]
  exact hm.wellFormed.compileExpr_compilesTo (parse_arityCorrect hparse) h

theorem square_of_indicator_compilesTo :
    let m := ((initial : Manager Float).indicator "p").2
    let given := (∅ : Bindings).insert "x" ((initial : Manager Float).indicator "p").1
    let e : Expr Float := .apply .multiply [.variable "x", .variable "x"]
    m.Reachable ∧ parse "x * x" = .ok e ∧ e.ArityCorrect ∧ m.Interprets given e ∧
      m.CompilesTo given e (m.compileExpr e (.interpretation given)) ∧
      m.CompilesTo given e (m.compile "x * x" (.interpretation given)) := by
  intro m given e
  have hm : m.Reachable := ⟨[.indicator "p"], rfl⟩
  have hdepth : Nesting.start.tooDeepAt? Position.start "x * x".toList = none := by
    decide +kernel
  have hlex : lex "x * x" = ⟨[⟨⟨1, 1⟩, .name ['x']⟩, ⟨⟨1, 3⟩, .symbol .star⟩,
      ⟨⟨1, 5⟩, .name ['x']⟩], ⟨1, 6⟩⟩ := by decide +kernel
  have hparse : parse "x * x" = .ok e := by
    simp only [parse, parseWith, grammatical, hdepth, hlex]
    rfl
  have hgiven : m.Interprets given e := by
    intro name hname
    have hx : "x" = name := by simpa [e, Expr.mentions_apply] using hname
    subst hx
    refine ⟨_, Std.TreeMap.getElem?_insert_self, decide_eq_true ?_⟩
    exact (initial_wellFormed.puts_indicator "p").lt_size
  have harity : e.ArityCorrect := .apply rfl (by simp [Expr.ArityCorrect.variable])
  have hmeaning := compilation_preserves_meaning hm
  exact ⟨hm, hparse, harity, hgiven, hmeaning.1 e given harity hgiven,
    hmeaning.2 "x * x" e given hparse hgiven⟩

end Manager

end DecisionDiagrams
