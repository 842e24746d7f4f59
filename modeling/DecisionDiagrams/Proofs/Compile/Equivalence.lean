import DecisionDiagrams.Proofs.Compile.Formula
import DecisionDiagrams.Proofs.Grammar.Enclosure

/-! Formulas that a manager has encoded are equivalent exactly if they have the same diagram. So a
formula is a tautology if its diagram is one, and unsatisfiable if its diagram is zero. -/
namespace DecisionDiagrams

open Scalar

theorem Operator.exists_ofBool_of_result? {α : Type} [Scalar α] {op : Operator}
    (hop : op.isLogical = true) {operands : List α} {x : α} (h : op.result? operands = some x) :
    ∃ b, x = ofBool b := by
  unfold result? at h
  split at h
  case h_6 y z =>
    cases h
    exact ⟨decide (isZero y = false ∧ isZero z = false), by simp [ofBool]⟩
  case h_7 y z =>
    cases h
    exact ⟨decide (isZero y = false ∨ isZero z = false), by simp [ofBool]⟩
  case h_8 y =>
    cases h
    exact ⟨isZero y, by cases isZero y <;> rfl⟩
  all_goals first | cases hop | cases h

namespace Expr

variable {α : Type} {e e' : Expr α}

def IsLogical (e : Expr α) : Prop := e.operators.find? (fun op => !op.isLogical) = none

theorem IsLogical.not_not (h : e.IsLogical) : (apply .not [apply .not [e]]).IsLogical := by
  simpa [IsLogical, operators, operatorsAll, Operator.isLogical] using h

variable [Scalar α]

/-- The value of a formula whose names are worth one where they are true and zero elsewhere. -/
def formulaValue? (e : Expr α) (truth : String → Bool) : Option α :=
  e.value? fun name => some (ofBool (truth name))

def Equivalent (e e' : Expr α) : Prop :=
  ∀ truth : String → Bool, ∃ x y,
    e.formulaValue? truth = some x ∧ e'.formulaValue? truth = some y ∧ Same x y

/-- The formula has the truth value `b`, whichever names are true. -/
def IsConstantly (e : Expr α) (b : Bool) : Prop :=
  ∀ truth : String → Bool, ∃ x, e.formulaValue? truth = some x ∧ isTrue x = b

def IsTautology (e : Expr α) : Prop := e.IsConstantly true

def IsUnsatisfiable (e : Expr α) : Prop := e.IsConstantly false

/-- Only a literal has other values than truth values. -/
theorem IsLogical.exists_ofBool (h : e.IsLogical) (hroot : ∀ x, e ≠ .literal x)
    {truth : String → Bool} {x : α} (hx : e.formulaValue? truth = some x) : ∃ b, x = ofBool b := by
  cases e with
  | literal y => exact absurd rfl (hroot y)
  | «variable» name => exact ⟨truth name, (Option.some.inj hx).symm⟩
  | apply op operands =>
    have hop : op.isLogical = true := allows_of_find?_eq_none .propositional h (.root operands)
    obtain ⟨xs, -, hresult⟩ := Option.bind_eq_some_iff.mp hx
    exact Operator.exists_ofBool_of_result? hop hresult

theorem Equivalent.symm (h : e.Equivalent e') : e'.Equivalent e := by
  intro truth
  obtain ⟨x, y, hx, hy, hsame⟩ := h truth
  exact ⟨y, x, hy, hx, hsame.symm⟩

variable [LawfulScalar α]

theorem equivalent_ofBool_iff (h : e.IsLogical) (hroot : ∀ x, e ≠ .literal x) (b : Bool) :
    e.Equivalent (.literal (ofBool b)) ↔ e.IsConstantly b := by
  constructor
  · intro hequiv truth
    obtain ⟨x, y, hx, hy, hsame⟩ := hequiv truth
    cases hy
    exact ⟨x, hx, (isTrue_congr hsame).trans (isTrue_ofBool b)⟩
  · intro hconst truth
    obtain ⟨x, hx, htrue⟩ := hconst truth
    obtain ⟨c, rfl⟩ := h.exists_ofBool hroot hx
    rw [isTrue_ofBool] at htrue
    exact ⟨_, _, hx, rfl, .inl (congrArg ofBool htrue)⟩

/-- Two negations change no formula that is zero or one everywhere. -/
theorem equivalent_not_not
    (h : ∀ truth, ∃ x b, e.formulaValue? truth = some x ∧ Same (ofBool b) x) :
    (apply .not [apply .not [e]]).Equivalent e := by
  intro truth
  obtain ⟨x, b, hx, hsame⟩ := h truth
  have hnot : (apply .not [e]).formulaValue? truth = some (UnaryOp.complement.compute x) :=
    value?_unary rfl hx
  refine ⟨_, x, value?_unary rfl hnot, hx, ?_⟩
  simp only [UnaryOp.compute, isTrue_ofBool, Bool.not_not, ← isTrue_congr hsame]
  exact hsame

end Expr

namespace Variables

/-- The truth values of the levels, if the names have truth values. -/
def levelTruth (v : Variables) (truth : String → Bool) (level : Nat) : Bool :=
  (v.name? level).elim false truth

def nameTruth (v : Variables) (truth : Nat → Bool) (name : String) : Bool :=
  (v.level? name).elim false truth

variable {v : Variables}

theorem WellFormed.levelTruth_eq (hv : v.WellFormed) {name : String} {level : Nat}
    (h : v.level? name = some level) (truth : String → Bool) :
    v.levelTruth truth level = truth name := by
  rw [levelTruth, (hv name level).mp h, Option.elim_some]

theorem WellFormed.levelTruth_nameTruth (hv : v.WellFormed) {level : Nat} (h : level < v.size)
    (truth : Nat → Bool) : v.levelTruth (v.nameTruth truth) level = truth level := by
  obtain ⟨name, hname⟩ := exists_name?.mpr h
  have hlevel := (hv name level).mpr hname
  rw [hv.levelTruth_eq hlevel, nameTruth, hlevel, Option.elim_some]

end Variables

namespace Manager

variable {α : Type} [Scalar α] {m m' : Manager α} {e e' : Expr α} {d d' : Nat}

structure Encodes (m : Manager α) (e : Expr α) (d : Nat) : Prop where
  denotes : m.table.Denotes m.truthValues e d
  interned {name : String} : e.Mentions name → ∃ level, m.vars.level? name = some level
  logical : e.IsLogical

/-- The diagram is zero or one under every assignment. -/
def IsZeroOneValued (m : Manager α) (d : Nat) : Prop :=
  ∀ a : Assignment, m.value? a d = some Scalar.zero ∨ m.value? a d = some Scalar.one

/-- The diagram has the value of the formula, whichever names are true. -/
theorem Encodes.value (hm : m.WellFormed) (h : m.Encodes e d) (truth : String → Bool) :
    ∃ x, e.formulaValue? truth = some x ∧
      Same (m.table.value (m.vars.levelTruth truth) d) x := by
  obtain ⟨x, hx, hsame⟩ := h.denotes.value (m.vars.levelTruth truth)
  refine ⟨x, ?_, hsame⟩
  rw [← hx]
  apply Expr.value?_congr
  intro name hname
  obtain ⟨level, hlevel⟩ := h.interned hname
  rw [truthValues, hlevel, Option.map_some, hm.vars.levelTruth_eq hlevel]

theorem Encodes.keeps (hm : m.WellFormed) (hkeeps : m.Keeps m') (h : m.Encodes e d) :
    m'.Encodes e d where
  denotes := by
    have hdenotes := h.denotes.grows hkeeps.grows.table
    refine ⟨hdenotes.lt_size, fun truth => ?_⟩
    obtain ⟨x, hx, hsame⟩ := hdenotes.value truth
    refine ⟨x, ?_, hsame⟩
    rw [← hx]
    apply Expr.value?_congr
    intro name hname
    obtain ⟨level, hlevel⟩ := h.interned hname
    rw [truthValues, truthValues, hlevel, hkeeps.level? hm hlevel]
  interned hname := by
    obtain ⟨level, hlevel⟩ := h.interned hname
    exact ⟨level, hkeeps.level? hm hlevel⟩
  logical := h.logical

theorem WellFormed.encodes_ofBool (hm : m.WellFormed) (b : Bool) :
    m.Encodes (.literal (ofBool b)) (Table.ofBool b) where
  denotes := by
    refine ⟨hm.table.ofBool_lt_size b, fun truth => ⟨ofBool b, rfl, .inl ?_⟩⟩
    exact Table.value_terminal (hm.table.node_ofBool b) truth
  interned hname := absurd hname Expr.mentions_literal
  logical := rfl

variable [LawfulScalar α]

omit [LawfulScalar α] in
/-- Truth values of names decide as much as those of levels do, since every level has a name. -/
theorem WellFormed.value_nameTruth (hm : m.WellFormed) (hd : d < m.table.size)
    (truth : Nat → Bool) :
    m.table.value (m.vars.levelTruth (m.vars.nameTruth truth)) d = m.table.value truth d := by
  apply hm.table.value_congr hd (fun _ _ => Nat.zero_le _)
  intro level _ hlevel
  exact hm.vars.levelTruth_nameTruth hlevel truth

/-- Diagrams that have the same value whichever names are true are the same. -/
theorem WellFormed.eq_iff_same_names (hm : m.WellFormed) (hd : d < m.table.size)
    (hd' : d' < m.table.size) :
    d = d' ↔ ∀ truth : String → Bool, Same (m.table.value (m.vars.levelTruth truth) d)
      (m.table.value (m.vars.levelTruth truth) d') := by
  constructor
  · rintro rfl truth
    exact .refl _
  · intro h
    apply hm.table.eq_of_value_eq hd hd'
    intro truth
    rw [← hm.table.canonical_value truth hd, ← hm.table.canonical_value truth hd',
      ← hm.value_nameTruth hd, ← hm.value_nameTruth hd']
    exact canonical_eq_iff.mpr (h _)

/-- Diagrams of formulas are the same exactly if the formulas are equivalent. -/
theorem Encodes.eq_iff (hm : m.WellFormed) (h : m.Encodes e d) (h' : m.Encodes e' d') :
    d = d' ↔ e.Equivalent e' := by
  rw [hm.eq_iff_same_names h.denotes.lt_size h'.denotes.lt_size]
  apply forall_congr'
  intro truth
  obtain ⟨x, hx, hsame⟩ := h.value hm truth
  obtain ⟨y, hy, hsame'⟩ := h'.value hm truth
  constructor
  · intro heq
    exact ⟨x, y, hx, hy, (hsame.symm.trans heq).trans hsame'⟩
  · rintro ⟨x', y', hx', hy', heq⟩
    cases hx.symm.trans hx'
    cases hy.symm.trans hy'
    exact (hsame.trans heq).trans hsame'.symm

/-- The diagram of a formula that has truth values tells whether they are all the same. -/
theorem Encodes.eq_ofBool_iff (hm : m.WellFormed) (h : m.Encodes e d)
    (hroot : ∀ x, e ≠ .literal x) (b : Bool) : d = Table.ofBool b ↔ e.IsConstantly b :=
  (h.eq_iff hm (hm.encodes_ofBool b)).trans (Expr.equivalent_ofBool_iff h.logical hroot b)

theorem Encodes.equivalent_not_not (hm : m.WellFormed) (h : m.Encodes e d)
    (hvalued : m.IsZeroOneValued d) : (Expr.apply .not [.apply .not [e]]).Equivalent e := by
  apply Expr.equivalent_not_not
  intro truth
  obtain ⟨x, hx, hsame⟩ := h.value hm truth
  obtain ⟨a, ha⟩ := hm.table.exists_assignment (m.vars.levelTruth truth)
  rw [ha d h.denotes.lt_size] at hsame
  have hvalue := hvalued a
  rw [value?_of_lt h.denotes.lt_size] at hvalue
  rcases hvalue with hvalue | hvalue
  · rw [Option.some.inj hvalue] at hsame
    exact ⟨x, false, hx, hsame⟩
  · rw [Option.some.inj hvalue] at hsame
    exact ⟨x, true, hx, hsame⟩

namespace WellFormed

/-- A formula that is encoded has its diagram from then on. -/
theorem encodes_of_encode (hm : m.WellFormed) {text : String} (h : m.encode text = (.ok d, m')) :
    ∃ e : Expr α, parse text = .ok e ∧ m'.WellFormed ∧ m'.Encodes e d := by
  obtain ⟨e, hparse, -⟩ := exists_parse_of_compile h
  obtain ⟨hlogical, hm', hnames, hdenotes⟩ := hm.denotes_of_encode hparse h
  refine ⟨e, hparse, hm', hdenotes, ?_, hlogical⟩
  intro name hname
  exact Option.isSome_iff_exists.mp (hnames name hname)

theorem exists_encode (hm : m.WellFormed) {text : String} (hparse : parse text = .ok e)
    (hlogical : e.IsLogical) : ∃ d m', m.encode text = (.ok d, m') := by
  have hencoding := hm.compileExpr_encoding (parse_arityCorrect hparse)
  rw [hlogical] at hencoding
  obtain ⟨d, m', hcompile, -⟩ := hencoding
  exact ⟨d, m', (compile_of_parse hparse m _).trans hcompile⟩

theorem encodes_twice (hm : m.WellFormed) {text text' : String} {m'' : Manager α}
    {requests : List (Request α)} (h : m.encode text = (.ok d, m'))
    (hrequests : ∀ r ∈ requests, r ≠ .clear)
    (h' : (m'.afterAll requests).encode text' = (.ok d', m'')) :
    ∃ e e' : Expr α, parse text = .ok e ∧ parse text' = .ok e' ∧ m''.WellFormed ∧
      m''.Encodes e d ∧ m''.Encodes e' d' := by
  obtain ⟨e, hparse, hm', hd⟩ := hm.encodes_of_encode h
  have hlater := hm'.keeps_afterAll hrequests
  obtain ⟨e', hparse', hm'', hd'⟩ := hlater.wellFormed.encodes_of_encode h'
  have hkeeps := hlater.trans (hlater.wellFormed.keeps_of_compile h')
  exact ⟨e, e', hparse, hparse', hm'', hd.keeps hm' hkeeps, hd'⟩

section NotNot

variable {text : String}
  (hdepth : Nesting.start.tooDeepAt? Position.start ("!!(" ++ text ++ ")").toList = none)
  {requests : List (Request α)} (hrequests : ∀ r ∈ requests, r ≠ .clear)

include hdepth hrequests

/-- Behind two negations, a formula that is zero or one everywhere has the diagram that it had. -/
theorem encode_notNot (hm : m.WellFormed) (h : m.encode text = (.ok d, m'))
    (hvalued : m'.IsZeroOneValued d) :
    ((m'.afterAll requests).encode ("!!(" ++ text ++ ")")).1 = .ok d := by
  obtain ⟨e, hparse, hm', hd⟩ := hm.encodes_of_encode h
  have hparse' := parse_notNot hparse hdepth
  have hlater := hm'.keeps_afterAll hrequests
  obtain ⟨d', m'', h'⟩ := hlater.wellFormed.exists_encode hparse' hd.logical.not_not
  obtain ⟨_, _, heq, heq', hm'', hd₁, hd₂⟩ := hm.encodes_twice h hrequests h'
  cases hparse.symm.trans heq
  cases hparse'.symm.trans heq'
  have hequiv := hd.equivalent_not_not hm' hvalued
  rw [h', (hd₁.eq_iff hm'' hd₂).mpr hequiv.symm]

theorem eq_of_encode_notNot (hm : m.WellFormed) {m'' : Manager α}
    (h : m.encode ("!!(" ++ text ++ ")") = (.ok d, m'))
    (h' : (m'.afterAll requests).encode text = (.ok d', m'')) (hvalued : m''.IsZeroOneValued d') :
    d = d' := by
  obtain ⟨_, e, heq, hparse, hm'', hd, hd'⟩ := hm.encodes_twice h hrequests h'
  cases (parse_notNot hparse hdepth).symm.trans heq
  exact (hd.eq_iff hm'' hd').mpr (hd'.equivalent_not_not hm'' hvalued)

end NotNot

end WellFormed

/-- Formulas that are encoded one after the other, whatever is asked in between, have the same
diagram exactly if they are equivalent. A formula that is no literal has the diagram one if it is a
tautology, and zero if it is unsatisfiable, and not otherwise. Behind two negations a formula that
is zero or one everywhere keeps its diagram, whichever of the two is encoded first. -/
theorem diagrams_decide_equivalence (hm : m.Reachable) :
    (∀ (text text' : String) (d d' : Nat) (m' m'' : Manager α) (requests : List (Request α)),
      m.encode text = (.ok d, m') → (∀ r ∈ requests, r ≠ .clear) →
      (m'.afterAll requests).encode text' = (.ok d', m'') →
      ∃ e e' : Expr α, parse text = .ok e ∧ parse text' = .ok e' ∧ (d = d' ↔ e.Equivalent e')) ∧
    (∀ (text : String) (e : Expr α) (d : Nat) (m' : Manager α), parse text = .ok e →
      (∀ x, e ≠ .literal x) → m.encode text = (.ok d, m') →
      (d = Table.one ↔ e.IsTautology) ∧ (d = Table.zero ↔ e.IsUnsatisfiable)) ∧
    ∀ text : String,
      Nesting.start.tooDeepAt? Position.start ("!!(" ++ text ++ ")").toList = none →
      (∀ (d : Nat) (m' : Manager α) (requests : List (Request α)), m.encode text = (.ok d, m') →
        m'.IsZeroOneValued d → (∀ r ∈ requests, r ≠ .clear) →
        ((m'.afterAll requests).encode ("!!(" ++ text ++ ")")).1 = .ok d) ∧
      ∀ (d d' : Nat) (m' m'' : Manager α) (requests : List (Request α)),
        m.encode ("!!(" ++ text ++ ")") = (.ok d, m') → (∀ r ∈ requests, r ≠ .clear) →
        (m'.afterAll requests).encode text = (.ok d', m'') → m''.IsZeroOneValued d' →
        d = d' := by
  have hwell := hm.wellFormed
  refine ⟨?_, ?_, ?_⟩
  · intro text text' d d' m' m'' requests h hrequests h'
    obtain ⟨e, e', hparse, hparse', hm'', hd, hd'⟩ := hwell.encodes_twice h hrequests h'
    exact ⟨e, e', hparse, hparse', hd.eq_iff hm'' hd'⟩
  · intro text e d m' hparse hroot h
    obtain ⟨e', hparse', hm', hd⟩ := hwell.encodes_of_encode h
    cases hparse.symm.trans hparse'
    exact ⟨hd.eq_ofBool_iff hm' hroot true, hd.eq_ofBool_iff hm' hroot false⟩
  · intro text hdepth
    constructor
    · intro d m' requests h hvalued hrequests
      exact hwell.encode_notNot hdepth hrequests h hvalued
    · intro d d' m' m'' requests h hrequests h' hvalued
      exact hwell.eq_of_encode_notNot hdepth hrequests h h' hvalued

theorem excluded_middle_encoded_as_one :
    let m := ((initial : Manager Float).indicator "q").2
    m.Reachable ∧ ∃ m', m.encode "p || !p" = (.ok Table.one, m') ∧
      ((m'.afterAll [.indicator "r"]).encode "!!(p || !p)").1 = .ok Table.one := by
  intro m
  have hm : m.Reachable := ⟨[.indicator "q"], rfl⟩
  let e : Expr Float := .apply .or [.variable "p", .apply .not [.variable "p"]]
  have hlex : lex "p || !p" = ⟨[⟨⟨1, 1⟩, .name ['p']⟩, ⟨⟨1, 3⟩, .symbol .bars⟩,
      ⟨⟨1, 6⟩, .symbol .bang⟩, ⟨⟨1, 7⟩, .name ['p']⟩], ⟨1, 8⟩⟩ := by decide +kernel
  have hparse : parse "p || !p" = .ok e := (parse_eq_of_lex (by decide +kernel) hlex).trans rfl
  have hdepth : Nesting.start.tooDeepAt? Position.start
      ("!!(" ++ "p || !p" ++ ")").toList = none := by decide +kernel
  have htautology : e.IsTautology := by
    intro truth
    have hp : (Expr.variable "p" : Expr Float).formulaValue? truth =
        some (ofBool (truth "p")) := rfl
    have hnot : (Expr.apply .not [.variable "p"]).formulaValue? truth = some _ :=
      Expr.value?_unary rfl hp
    refine ⟨_, Expr.value?_binary rfl hp hnot, ?_⟩
    simp [BinaryOp.compute, UnaryOp.compute]
  obtain ⟨d, m', hencode⟩ := hm.wellFormed.exists_encode hparse rfl
  obtain ⟨-, hroot, hnotNot⟩ := diagrams_decide_equivalence hm
  obtain ⟨hone, -⟩ := hroot "p || !p" e d m' hparse (by simp [e]) hencode
  obtain rfl := hone.mpr htautology
  have hvalued : m'.IsZeroOneValued Table.one := by
    intro a
    obtain ⟨_, -, hm', -⟩ := hm.wellFormed.encodes_of_encode hencode
    rw [value?_of_lt hm'.table.one_lt_size, Table.value_terminal hm'.table.node_one]
    exact .inr rfl
  exact ⟨hm, m', hencode,
    (hnotNot "p || !p" hdepth).1 Table.one m' [.indicator "r"] hencode hvalued (by simp)⟩

end Manager

end DecisionDiagrams
