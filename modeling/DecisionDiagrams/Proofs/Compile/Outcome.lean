import DecisionDiagrams.Proofs.Compile.Encoding
import DecisionDiagrams.Proofs.Compile.Soundness

/-! What compiling a text comes to: an error in the text, all missing names, all names out of
range, the first operator that is not allowed, or else a diagram. -/
namespace DecisionDiagrams

structure Lists (names : List String) (p : String → Prop) : Prop where
  ascending : names.Pairwise (· < ·)
  mem_iff (name : String) : name ∈ names ↔ p name

theorem Lists.nodup {names : List String} {p : String → Prop} (h : Lists names p) :
    names.Nodup := by
  refine h.ascending.imp ?_
  rintro name _ hlt rfl
  exact String.lt_irrefl name hlt

/-- There is one such list. -/
theorem Lists.eq {names names' : List String} {p : String → Prop} (h : Lists names p)
    (h' : Lists names' p) : names = names' := by
  have hperm : names.Perm names' :=
    (List.perm_ext_iff_of_nodup h.nodup h'.nodup).mpr fun name =>
      (h.mem_iff name).trans (h'.mem_iff name).symm
  exact hperm.eq_of_pairwise (fun _ _ _ _ hlt hlt' => absurd hlt' (String.lt_asymm hlt))
    h.ascending h'.ascending

theorem lists_names {α : Type} (e : Expr α) : Lists e.names.toList fun name => e.Mentions name where
  ascending := e.names.ordered_toList.imp fun h => compareOfLessAndEq_eq_lt.mp h
  mem_iff _ := Std.TreeSet.mem_toList.trans Expr.mem_names

theorem Lists.filter {names : List String} {p q : String → Prop} (h : Lists names p)
    {f : String → Bool} (hf : ∀ name, f name = true ↔ q name) :
    Lists (names.filter f) fun name => p name ∧ q name where
  ascending := h.ascending.filter f
  mem_iff name := by rw [List.mem_filter, h.mem_iff, hf]

namespace Manager

variable {α : Type} {m : Manager α} {e : Expr α} {given given' : Bindings}

def Missing (given : Bindings) (e : Expr α) (name : String) : Prop :=
  e.Mentions name ∧ given[name]? = none

/-- The names of the expression that a number is given for which is not in the table. -/
def Unknown (m : Manager α) (given : Bindings) (e : Expr α) (name : String) : Prop :=
  e.Mentions name ∧ ∃ d, given[name]? = some d ∧ m.contains d = false

theorem lists_missing (given : Bindings) (e : Expr α) :
    Lists (e.names.toList.filter fun name => given[name]?.isNone) (Missing given e) :=
  (lists_names e).filter fun _ => Option.isNone_iff_eq_none

theorem lists_unknown (m : Manager α) (given : Bindings) (e : Expr α) :
    Lists (e.names.toList.filter fun name => given[name]?.any fun d => !m.contains d)
      (m.Unknown given e) :=
  (lists_names e).filter fun name => by simp [Option.any_eq_true]

/-- What is given for other names makes no difference. -/
theorem restrict_congr (m : Manager α)
    (h : ∀ name, e.Mentions name → given[name]? = given'[name]?) :
    m.restrict given e.names.toList = m.restrict given' e.names.toList := by
  have hnames (name : String) (hname : name ∈ e.names.toList) : given[name]? = given'[name]? :=
    h name (((lists_names e).mem_iff name).mp hname)
  have hmissing : e.names.toList.filter (fun name => given[name]?.isNone) =
      e.names.toList.filter fun name => given'[name]?.isNone :=
    List.filter_congr fun name hname => by rw [hnames name hname]
  have hunknown : e.names.toList.filter (fun name => given[name]?.any fun d => !m.contains d) =
      e.names.toList.filter fun name => given'[name]?.any fun d => !m.contains d :=
    List.filter_congr fun name hname => by rw [hnames name hname]
  have hgiven : e.names.toList.filterMap (fun name => given[name]?.map (name, ·)) =
      e.names.toList.filterMap fun name => given'[name]?.map (name, ·) :=
    List.filterMap_congr fun name hname => by rw [hnames name hname]
  simp only [restrict, hmissing, hunknown, hgiven]

/-- Every name is given a diagram in the table if none is missing or out of range. -/
theorem interprets_of_lists_nil (hmissing : Lists [] (Missing given e))
    (hunknown : Lists [] (m.Unknown given e)) : m.Interprets given e := by
  intro name hname
  cases hd : given[name]? with
  | none => exact absurd ((hmissing.mem_iff name).mpr ⟨hname, hd⟩) List.not_mem_nil
  | some d =>
    refine ⟨d, rfl, ?_⟩
    by_contra hcontains
    have hunowned : m.contains d = false := by simpa using hcontains
    exact List.not_mem_nil ((hunknown.mem_iff name).mpr ⟨hname, d, hd, hunowned⟩)

theorem interprets_of_restrict {bindings : Bindings}
    (h : m.restrict given e.names.toList = .ok bindings) : m.Interprets given e := by
  unfold restrict at h
  simp only [Bool.not_eq_true', List.isEmpty_eq_false_iff] at h
  split at h
  next => cases h
  next hmissing =>
    split at h
    next => cases h
    next hunknown =>
      have hlists := lists_missing given e
      have hlists' := lists_unknown m given e
      rw [not_not.mp hmissing] at hlists
      rw [not_not.mp hunknown] at hlists'
      exact interprets_of_lists_nil hlists hlists'

variable [Scalar α]

theorem compileExpr_of_restrict {error : CompileError}
    (h : m.restrict given e.names.toList = .error error) :
    m.compileExpr e (.interpretation given) = (.error (.rejected error), m) := by
  simp only [compileExpr, resolve, h]

theorem compileExpr_congr (m : Manager α)
    (h : ∀ name, e.Mentions name → given[name]? = given'[name]?) :
    m.compileExpr e (.interpretation given) = m.compileExpr e (.interpretation given') := by
  simp only [Manager.compileExpr, resolve, m.restrict_congr h, Naming.vocabulary]

variable [LawfulScalar α]

/-- Over given diagrams, an expression has missing names, or else names out of range, or else a
diagram. -/
theorem WellFormed.compileExpr_interpretation (hm : m.WellFormed) (harity : e.ArityCorrect)
    (given : Bindings) :
    ∃ missing unknown, Lists missing (Missing given e) ∧ Lists unknown (m.Unknown given e) ∧
      if missing ≠ [] then
        (m.compileExpr e (.interpretation given)).1 =
          .error (.rejected (.unresolvedVariables missing))
      else if unknown ≠ [] then
        (m.compileExpr e (.interpretation given)).1 =
          .error (.rejected (.unknownDiagrams unknown))
      else ∃ d, (m.compileExpr e (.interpretation given)).1 = .ok d := by
  have hmissing := lists_missing given e
  have hunknown := lists_unknown m given e
  refine ⟨_, _, hmissing, hunknown, ?_⟩
  split
  next hne => simp [compileExpr_of_restrict, restrict, hne]
  next hnil =>
    rw [ne_eq, not_not] at hnil
    rw [hnil] at hmissing
    split
    next hne => simp [compileExpr_of_restrict, restrict, hnil, hne]
    next hnil' =>
      rw [ne_eq, not_not] at hnil'
      rw [hnil'] at hunknown
      obtain ⟨d, m', hcompile, -⟩ :=
        hm.compileExpr_denotes harity (interprets_of_lists_nil hmissing hunknown)
      exact ⟨d, by rw [hcompile]⟩

/-- As a formula, an expression has a first operator that is not logical, or else a diagram. -/
theorem WellFormed.outcome_encoding (hm : m.WellFormed) (harity : e.ArityCorrect) :
    match e.operators.find? (fun op => !op.isLogical) with
    | some op =>
      (m.compileExpr e .encoding).1 = .error (.rejected (.operatorNotAllowed op))
    | none => ∃ d, (m.compileExpr e .encoding).1 = .ok d := by
  have hcompile := hm.compileExpr_encoding harity
  split
  next op hop =>
    rw [hop] at hcompile
    obtain ⟨m', hcompile⟩ := hcompile
    rw [hcompile]
  next hnone =>
    rw [hnone] at hcompile
    obtain ⟨d, m', hcompile, -⟩ := hcompile
    exact ⟨d, by rw [hcompile]⟩

/-- An expression whose operators have their operands is refused for its names or its operators. -/
theorem WellFormed.compileExpr_error (hm : m.WellFormed) (harity : e.ArityCorrect)
    {naming : Naming} {failure : Failure} (h : (m.compileExpr e naming).1 = .error failure) :
    (∃ names, failure = .rejected (.unresolvedVariables names)) ∨
      (∃ names, failure = .rejected (.unknownDiagrams names)) ∨
        ∃ op, failure = .rejected (.operatorNotAllowed op) := by
  cases naming with
  | interpretation given =>
    obtain ⟨missing, unknown, -, -, houtcome⟩ := hm.compileExpr_interpretation harity given
    rw [h] at houtcome
    split at houtcome
    next => cases houtcome; exact .inl ⟨missing, rfl⟩
    next =>
      split at houtcome
      next => cases houtcome; exact .inr (.inl ⟨unknown, rfl⟩)
      next => obtain ⟨d, hd⟩ := houtcome; cases hd
  | encoding =>
    have houtcome := hm.outcome_encoding harity
    rw [h] at houtcome
    split at houtcome
    next op _ => cases houtcome; exact .inr (.inr ⟨op, rfl⟩)
    next => obtain ⟨d, hd⟩ := houtcome; cases hd

/-- A text is refused for its syntax, its names or its operators. -/
theorem WellFormed.compile_error (hm : m.WellFormed) {text : String} {naming : Naming}
    {failure : Failure} (h : (m.compile text naming).1 = .error failure) :
    (∃ error, (parse text : Except SyntaxError (Expr α)) = .error error ∧
        failure = .rejected (.malformed error)) ∨
      (∃ names, failure = .rejected (.unresolvedVariables names)) ∨
        (∃ names, failure = .rejected (.unknownDiagrams names)) ∨
          ∃ op, failure = .rejected (.operatorNotAllowed op) := by
  cases hparse : (parse text : Except SyntaxError (Expr α)) with
  | error error =>
    rw [Manager.compile, hparse] at h
    cases h
    exact .inl ⟨error, rfl, rfl⟩
  | ok e =>
    rw [compile_of_parse hparse] at h
    exact .inr (hm.compileExpr_error (parse_arityCorrect hparse) h)

/-- What compiling a text comes to. Over given diagrams, every name that is missing is reported, or
else every name out of range, and what is given for other names makes no difference. As a formula,
the first operator that is not logical is reported. -/
theorem compilation_outcome (hm : m.Reachable) (text : String) :
    (∀ naming error, (m.compile text naming).1 = .error (.rejected (.malformed error)) ↔
      (parse text : Except SyntaxError (Expr α)) = .error error) ∧
    (∀ e : Expr α, parse text = .ok e →
      (∀ given, ∃ missing unknown,
        Lists missing (Missing given e) ∧ Lists unknown (m.Unknown given e) ∧
          if missing ≠ [] then
            (m.compile text (.interpretation given)).1 =
              .error (.rejected (.unresolvedVariables missing))
          else if unknown ≠ [] then
            (m.compile text (.interpretation given)).1 =
              .error (.rejected (.unknownDiagrams unknown))
          else ∃ d, (m.compile text (.interpretation given)).1 = .ok d) ∧
      (match e.operators.find? (fun op => !op.isLogical) with
        | some op => (m.compile text .encoding).1 = .error (.rejected (.operatorNotAllowed op))
        | none => ∃ d, (m.compile text .encoding).1 = .ok d) ∧
      ∀ given given', (∀ name, e.Mentions name → given[name]? = given'[name]?) →
        m.compile text (.interpretation given) = m.compile text (.interpretation given')) ∧
    ∀ naming op found,
      (m.compile text naming).1 ≠ .error (.rejected (.arityMismatch op found)) := by
  have hwell := hm.wellFormed
  refine ⟨fun naming error => ⟨fun h => ?_, fun hparse => by rw [compile, hparse]⟩,
    fun e hparse => ?_, fun naming op found h => ?_⟩
  · rcases hwell.compile_error h with ⟨error', hparse, herror⟩ | ⟨_, herror⟩ | ⟨_, herror⟩ |
      ⟨_, herror⟩ <;> cases herror
    exact hparse
  · have harity := parse_arityCorrect hparse
    simp only [compile_of_parse hparse]
    exact ⟨hwell.compileExpr_interpretation harity, hwell.outcome_encoding harity,
      fun given given' => m.compileExpr_congr⟩
  · rcases hwell.compile_error h with ⟨_, _, herror⟩ | ⟨_, herror⟩ | ⟨_, herror⟩ | ⟨_, herror⟩ <;>
      cases herror

theorem compilation_outcome_of_sum :
    let m := ((initial : Manager Float).indicator "p").2
    let given := (∅ : Bindings).insert "p" 9
    m.Reachable ∧
      (m.compile "p + x" (.interpretation given)).1 =
        .error (.rejected (.unresolvedVariables ["x"])) ∧
      (m.compile "p + x" .encoding).1 = .error (.rejected (.operatorNotAllowed .add)) := by
  intro m given
  have hm : m.Reachable := ⟨[.indicator "p"], rfl⟩
  have hdepth : Nesting.start.tooDeepAt? Position.start "p + x".toList = none := by
    decide +kernel
  have hlex : lex "p + x" = ⟨[⟨⟨1, 1⟩, .name ['p']⟩, ⟨⟨1, 3⟩, .symbol .plus⟩,
      ⟨⟨1, 5⟩, .name ['x']⟩], ⟨1, 6⟩⟩ := by decide +kernel
  have hparse : parse "p + x" = .ok (.apply .add [.variable "p", .variable "x"] : Expr Float) := by
    simp only [parse, parseWith, grammatical, hdepth, hlex]
    rfl
  obtain ⟨hinterpretation, hencoding, -⟩ := (compilation_outcome hm "p + x").2.1 _ hparse
  obtain ⟨missing, unknown, hmissing, -, houtcome⟩ := hinterpretation given
  have hx : Lists ["x"]
      (Missing given (.apply .add [.variable "p", .variable "x"] : Expr Float)) := by
    refine ⟨List.pairwise_singleton _ _, fun name => ?_⟩
    simp only [Missing, given, Expr.mentions_apply, List.mem_cons, List.not_mem_nil, or_false,
      exists_eq_or_imp, exists_eq_left, Expr.mentions_variable]
    constructor
    · rintro rfl
      exact ⟨.inr rfl, rfl⟩
    · rintro ⟨rfl | rfl, hnone⟩
      · simp at hnone
      · rfl
  obtain rfl := hmissing.eq hx
  exact ⟨hm, houtcome, hencoding⟩

end Manager

end DecisionDiagrams
