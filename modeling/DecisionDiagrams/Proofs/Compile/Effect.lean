import DecisionDiagrams.Proofs.Compile.Outcome
import DecisionDiagrams.Proofs.Grammar.Language

/-! What a compilation leaves behind in a manager. Over given diagrams it adds no variable, and
for a text that is refused it changes nothing. As a formula it adds the names of the expression
that are no variables yet, also if the formula is refused. -/
namespace DecisionDiagrams

namespace Variables

variable {v v' : Variables}

theorem names_intern (v : Variables) (name : String) :
    (v.intern name).2.names.toList =
      v.names.toList ++ [name].filter fun name => (v.level? name).isNone := by
  cases h : v.level? name with
  | some level => simp [intern_of_level? h, h]
  | none => simp [intern_of_new h, h]

theorem level?_intern_of_ne {name name' : String} (hne : name ≠ name') :
    (v.intern name).2.level? name' = v.level? name' := by
  cases h : v.level? name with
  | some level => rw [intern_of_level? h]
  | none =>
    rw [intern_of_new h]
    simp [level?, Std.HashMap.getElem?_insert, hne]

def internAll (v : Variables) : List String → Variables
  | [] => v
  | name :: names => (v.intern name).2.internAll names

/-- Of names that differ, those that are no variables yet are added in the order of the list. -/
theorem names_internAll {names : List String} (hnodup : names.Nodup) :
    (v.internAll names).names.toList =
      v.names.toList ++ names.filter fun name => (v.level? name).isNone := by
  induction names generalizing v with
  | nil => simp [internAll]
  | cons name names ih =>
    obtain ⟨hname, hnames⟩ := List.nodup_cons.mp hnodup
    have hrest : names.filter (fun name' => ((v.intern name).2.level? name').isNone) =
        names.filter fun name' => (v.level? name').isNone := by
      refine List.filter_congr fun name' hname' => ?_
      have hne : name ≠ name' := by
        rintro rfl
        exact hname hname'
      rw [level?_intern_of_ne hne]
    rw [internAll, ih hnames, hrest, names_intern, List.append_assoc, ← List.filter_append,
      List.singleton_append]

/-- The variables of `v'` are those of `v` at their levels, and after them the names of the
expression that are no variables of `v`, in ascending order. -/
structure AddsNames {α : Type} (v : Variables) (e : Expr α) (v' : Variables) : Prop where
  names : ∃ new, Lists new (fun name => e.Mentions name ∧ v.level? name = Option.none) ∧
    v'.names.toList = v.names.toList ++ new
  level? {name : String} {level : Nat} : v.level? name = some level → v'.level? name = some level

end Variables

namespace Manager

variable {α : Type} [Scalar α] {m : Manager α} {e : Expr α}

theorem vars_bindVariables (m : Manager α) (bindings : Bindings) (names : List String) :
    (m.bindVariables bindings names).2.vars = m.vars.internAll names := by
  induction names generalizing m bindings with
  | nil => rfl
  | cons name names ih =>
    rw [bindVariables, ih]
    rfl

/-- Only finding out what the names stand for makes variables. -/
theorem vars_compileExpr (m : Manager α) (e : Expr α) (naming : Naming) :
    (m.compileExpr e naming).2.vars = (m.resolve e.names naming).2.vars := by
  unfold compileExpr
  split
  next h => rw [h]
  next h => rw [h]; rfl

theorem vars_compileExpr_interpretation (m : Manager α) (e : Expr α) (given : Bindings) :
    (m.compileExpr e (.interpretation given)).2.vars = m.vars := by
  rw [vars_compileExpr]
  rfl

theorem vars_compile_interpretation (m : Manager α) (text : String) (given : Bindings) :
    (m.compile text (.interpretation given)).2.vars = m.vars := by
  unfold compile
  split
  next => rfl
  next e _ => exact m.vars_compileExpr_interpretation e given

namespace WellFormed

variable [LawfulScalar α]

/-- Whatever becomes of a formula, its names are variables from then on. -/
theorem addsNames_compileExpr (hm : m.WellFormed) (e : Expr α) :
    m.vars.AddsNames e (m.compileExpr e .encoding).2.vars where
  names := by
    have hlists := lists_names e
    refine ⟨_, hlists.filter fun name => Option.isNone_iff_eq_none, ?_⟩
    rw [vars_compileExpr, ← Variables.names_internAll hlists.nodup]
    exact congrArg (fun v : Variables => v.names.toList) (m.vars_bindVariables ∅ e.names.toList)
  level? {name level} hlevel := by
    exact (hm.compileExpr e .encoding).level? hm hlevel

/-- An expression whose operators have their operands is refused before anything is changed. -/
theorem compileExpr_interpretation_of_error (hm : m.WellFormed) (harity : e.ArityCorrect)
    {given : Bindings} {failure : Failure}
    (h : (m.compileExpr e (.interpretation given)).1 = .error failure) :
    (m.compileExpr e (.interpretation given)).2 = m := by
  cases hrestrict : m.restrict given e.names.toList with
  | error error => rw [compileExpr_of_restrict hrestrict]
  | ok bindings =>
    obtain ⟨d, m', hcompile, -⟩ :=
      hm.compileExpr_denotes harity (interprets_of_restrict hrestrict)
    rw [hcompile] at h
    cases h

theorem compile_interpretation_of_error (hm : m.WellFormed) {text : String} {given : Bindings}
    {failure : Failure} (h : (m.compile text (.interpretation given)).1 = .error failure) :
    (m.compile text (.interpretation given)).2 = m := by
  cases hparse : (parse text : Except SyntaxError (Expr α)) with
  | error error => rw [Manager.compile, hparse]
  | ok e =>
    rw [compile_of_parse hparse] at h ⊢
    exact hm.compileExpr_interpretation_of_error (parse_arityCorrect hparse) h

theorem compile_of_malformed (hm : m.WellFormed) {text : String} {naming : Naming}
    {error : SyntaxError} (h : (m.compile text naming).1 = .error (.rejected (.malformed error))) :
    (m.compile text naming).2 = m := by
  rcases hm.compile_error h with ⟨error', hparse, -⟩ | ⟨_, herror⟩ | ⟨_, herror⟩ | ⟨_, herror⟩
  · rw [Manager.compile, hparse]
  all_goals cases herror

end WellFormed

variable [LawfulScalar α]

/-- What a compilation leaves behind: nothing, if a text over given diagrams is refused; never a
new variable, over given diagrams; exactly the new names of a formula, whether it is refused or
not; and nothing at all, if a text is malformed. -/
theorem compilation_effect (hm : m.Reachable) :
    (∀ text given failure, (m.compile text (.interpretation given)).1 = .error failure →
      (m.compile text (.interpretation given)).2 = m) ∧
    (∀ given, (∀ text, (m.compile text (.interpretation given)).2.vars = m.vars) ∧
      ∀ e, (m.compileExpr e (.interpretation given)).2.vars = m.vars) ∧
    (∀ e, m.vars.AddsNames e (m.compileExpr e .encoding).2.vars ∧
      ∀ text, parse text = .ok e → m.vars.AddsNames e (m.compile text .encoding).2.vars) ∧
    ∀ text naming error, (m.compile text naming).1 = .error (.rejected (.malformed error)) →
      (m.compile text naming).2 = m := by
  have hwell := hm.wellFormed
  refine ⟨fun text given failure => hwell.compile_interpretation_of_error, fun given => ⟨?_, ?_⟩,
    fun e => ⟨hwell.addsNames_compileExpr e, ?_⟩,
    fun text naming error => hwell.compile_of_malformed⟩
  · exact fun text => m.vars_compile_interpretation text given
  · exact fun e => m.vars_compileExpr_interpretation e given
  · intro text hparse
    rw [compile_of_parse hparse]
    exact hwell.addsNames_compileExpr e

theorem compilation_effect_of_sum :
    let m := ((initial : Manager Float).indicator "p").2
    m.Reachable ∧
      (m.compile "p + x" (.interpretation ∅)).2 = m ∧
      (m.compile "1 +" .encoding).2 = m ∧
      (m.compile "p + x" .encoding).1 = .error (.rejected (.operatorNotAllowed .add)) ∧
      (m.compile "p + x" .encoding).2.vars.names.toList = ["p", "x"] := by
  intro m
  have hm : m.Reachable := ⟨[.indicator "p"], rfl⟩
  have hlex : lex "p + x" = ⟨[⟨⟨1, 1⟩, .name ['p']⟩, ⟨⟨1, 3⟩, .symbol .plus⟩,
      ⟨⟨1, 5⟩, .name ['x']⟩], ⟨1, 6⟩⟩ := by decide +kernel
  have hparse : parse "p + x" = .ok (.apply .add [.variable "p", .variable "x"] : Expr Float) :=
    (parse_eq_of_lex (by decide +kernel) hlex).trans rfl
  have hlex' : lex "1 +" = ⟨[⟨⟨1, 1⟩, .literal ⟨['1'], none, none⟩⟩, ⟨⟨1, 3⟩, .symbol .plus⟩],
      ⟨1, 4⟩⟩ := by decide +kernel
  have hparse' : (parse "1 +" : Except SyntaxError (Expr Float)) =
      .error (.unexpected .operand ⟨1, 4⟩) :=
    (parse_eq_of_lex (by decide +kernel) hlex').trans rfl
  have harity := parse_arityCorrect hparse
  obtain ⟨hrefused, -, hadds, hmalformed⟩ := compilation_effect hm
  refine ⟨hm, ?_, ?_, ?_, ?_⟩
  · obtain ⟨missing, unknown, hmissing, -, houtcome⟩ :=
      hm.wellFormed.compileExpr_interpretation harity ∅
    have hp : "p" ∈ missing := by
      simp [hmissing.mem_iff, Missing, Expr.mentions_apply]
    rw [if_pos (List.ne_nil_of_mem hp), ← compile_of_parse hparse] at houtcome
    exact hrefused _ _ _ houtcome
  · refine hmalformed "1 +" .encoding (.unexpected .operand ⟨1, 4⟩) ?_
    rw [compile, hparse']
  · rw [compile_of_parse hparse]
    exact hm.wellFormed.outcome_encoding harity
  · obtain ⟨new, hnew, hnames⟩ := ((hadds _).2 "p + x" hparse).names
    have hvars : m.vars = (Variables.none.intern "p").2 := rfl
    have hp : m.vars.names.toList = ["p"] := by
      rw [hvars, Variables.names_intern]
      simp [Variables.none, Variables.level?]
    have hx : Lists ["x"] fun name =>
        (.apply .add [.variable "p", .variable "x"] : Expr Float).Mentions name ∧
          m.vars.level? name = none := by
      refine ⟨List.pairwise_singleton _ _, fun name => ?_⟩
      simp only [Expr.mentions_apply, List.mem_cons, List.not_mem_nil, or_false,
        exists_eq_or_imp, exists_eq_left, Expr.mentions_variable]
      constructor
      · rintro rfl
        refine ⟨.inr rfl, ?_⟩
        rw [hvars, Variables.level?_intern_of_ne (by decide)]
        simp [Variables.none, Variables.level?]
      · rintro ⟨rfl | rfl, hnone⟩
        · rw [hvars, (Variables.none_wellFormed.intern "p").2] at hnone
          cases hnone
        · rfl
    rw [hnames, hp, hnew.eq hx]
    rfl

end Manager

end DecisionDiagrams
