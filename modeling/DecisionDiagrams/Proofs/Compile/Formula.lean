import DecisionDiagrams.Proofs.Compile.Encoding
import DecisionDiagrams.Proofs.Grammar.Arity
import DecisionDiagrams.Proofs.History.Basic
import DecisionDiagrams.Proofs.Scalar.Float

/-! The diagram of a formula has the value of the formula under every assignment to names, in
whatever order a manager has met the names, and whatever is asked of it later. -/
namespace DecisionDiagrams

open Scalar

/-- The truth value that the last pair of a name gives it, which is false without any. -/
def lastTruth (truths : List (String × Bool)) (name : String) : Bool :=
  (truths.reverse.lookup name).getD false

theorem lastTruth_append (truths : List (String × Bool)) (name name' : String) (truth : Bool) :
    lastTruth (truths ++ [(name', truth)]) name =
      if name = name' then truth else lastTruth truths name := by
  rw [lastTruth, List.reverse_append, List.reverse_singleton, List.singleton_append,
    List.lookup_cons]
  split
  next h => rw [if_pos (by simpa using h)]; rfl
  next h => rw [if_neg (by simpa using h)]; rfl

namespace Variables

variable {v : Variables}

theorem assignment_append (v : Variables) (truths : List (String × Bool)) (name : String)
    (truth : Bool) :
    v.assignment (truths ++ [(name, truth)]) =
      match v.level? name with
      | some level => (v.assignment truths).setIfInBounds level truth
      | .none => v.assignment truths := by
  rw [assignment, List.foldl_append]
  rfl

theorem size_assignment (v : Variables) (truths : List (String × Bool)) :
    (v.assignment truths).size = v.size := by
  induction truths using List.reverseRecOn with
  | nil => simp [assignment]
  | append_singleton truths pair ih =>
    rw [assignment_append]
    split
    next => rw [Array.size_setIfInBounds, ih]
    next => exact ih

/-- An assignment to names gives the level of a name its last truth value. -/
theorem WellFormed.truth_assignment (hv : v.WellFormed) {name : String} {level : Nat}
    (h : v.level? name = some level) (truths : List (String × Bool)) :
    Assignment.truth (v.assignment truths) level = lastTruth truths name := by
  induction truths using List.reverseRecOn with
  | nil =>
    have hlevel := hv.level?_lt h
    simp [assignment, Assignment.truth, lastTruth, hlevel]
  | append_singleton truths pair ih =>
    obtain ⟨name', truth⟩ := pair
    rw [assignment_append, lastTruth_append]
    split
    next level' hlevel' =>
      have hiff : level' = level ↔ name = name' := by
        constructor
        · rintro rfl
          exact Option.some.inj (((hv name _).mp h).symm.trans ((hv name' _).mp hlevel'))
        · rintro rfl
          exact Option.some.inj (hlevel'.symm.trans h)
      have hlt : level' < (v.assignment truths).size :=
        (hv.level?_lt hlevel').trans_eq (v.size_assignment truths).symm
      rw [Assignment.truth, Array.getD_eq_getD_getElem?, Array.getElem?_setIfInBounds, if_pos hlt,
        ← ih, Assignment.truth, Array.getD_eq_getD_getElem?]
      simp only [hiff]
      split
      next => rfl
      next => rfl
    next hnone =>
      rw [if_neg, ih]
      rintro rfl
      rw [h] at hnone
      cases hnone

end Variables

namespace Manager

variable {α : Type} [Scalar α] {m m' : Manager α} {e : Expr α} {d : Nat}

/-- What an evaluation of the diagram may answer: its value under an assignment to names that is
made after some requests, and evaluated after some more. -/
def Answers (m : Manager α) (d : Nat) (truths : List (String × Bool)) (y : Option α) : Prop :=
  ∃ earlier later : List (Request α), (∀ r ∈ earlier, r ≠ .clear) ∧ (∀ r ∈ later, r ≠ .clear) ∧
    ((m.afterAll earlier).afterAll later).value? ((m.afterAll earlier).vars.assignment truths) d = y

variable [LawfulScalar α]

theorem WellFormed.answers (hm : m.WellFormed) (hd : m.table.Denotes m.truthValues e d)
    (hnames : ∀ name, e.Mentions name → (m.vars.level? name).isSome)
    {truths : List (String × Bool)} {answer : Option α} (h : m.Answers d truths answer) :
    ∃ x y, e.value? (fun name => some (ofBool (lastTruth truths name))) = some x ∧
      answer = some y ∧ Same y x := by
  obtain ⟨earlier, later, hearlier, hlater, rfl⟩ := h
  have hfirst := hm.keeps_afterAll hearlier
  have hsecond := hfirst.wellFormed.keeps_afterAll hlater
  have hd' := hd.grows (hfirst.trans hsecond).grows.table
  obtain ⟨x, hx, hsame⟩ :=
    hd'.value (Assignment.truth ((m.afterAll earlier).vars.assignment truths))
  refine ⟨x, _, ?_, value?_of_lt hd'.lt_size _, hsame⟩
  rw [← hx]
  refine Expr.value?_congr fun name hname => ?_
  obtain ⟨level, hlevel⟩ := Option.isSome_iff_exists.mp (hnames name hname)
  have hlevel' := hfirst.level? hm hlevel
  rw [truthValues, hlevel, Option.map_some,
    hfirst.wellFormed.vars.truth_assignment hlevel' truths]

/-- A formula that is encoded is logical, and has its diagram over its names, which are variables
then. -/
theorem WellFormed.denotes_of_encode (hm : m.WellFormed) {text : String}
    (hparse : parse text = .ok e) (h : m.encode text = (.ok d, m')) :
    e.operators.find? (fun op => !op.isLogical) = none ∧ m'.WellFormed ∧
      (∀ name, e.Mentions name → (m'.vars.level? name).isSome) ∧
        m'.table.Denotes m'.truthValues e d := by
  rw [encode, compile_of_parse hparse] at h
  have hencoding := hm.compileExpr_encoding (parse_arityCorrect hparse)
  split at hencoding
  next =>
    obtain ⟨m'', hcompile⟩ := hencoding
    cases hcompile.symm.trans h
  next hlogical =>
    obtain ⟨d', m'', hcompile, hdiagram⟩ := hencoding
    cases hcompile.symm.trans h
    exact ⟨hlogical, hdiagram⟩

theorem WellFormed.answers_encode (hm : m.WellFormed) {text : String} (hparse : parse text = .ok e)
    (h : m.encode text = (.ok d, m')) {truths : List (String × Bool)} {answer : Option α}
    (hanswer : m'.Answers d truths answer) :
    ∃ x y, e.value? (fun name => some (ofBool (lastTruth truths name))) = some x ∧
      answer = some y ∧ Same y x := by
  obtain ⟨-, hm', hnames, hdenotes⟩ := hm.denotes_of_encode hparse h
  exact hm'.answers hdenotes hnames hanswer

/-- From the encoding of a formula on, its diagram has the value of the formula in which every name
is worth its last truth value. So the order in which two managers met the names makes no
difference. -/
theorem encoding_preserves_meaning (hm : m.Reachable) {text : String}
    (h : m.encode text = (.ok d, m')) :
    ∃ e : Expr α, parse text = .ok e ∧
      (∀ truths answer, m'.Answers d truths answer →
        ∃ x y, e.value? (fun name => some (ofBool (lastTruth truths name))) = some x ∧
          answer = some y ∧ Same y x) ∧
      ∀ (n n' : Manager α) (d' : Nat), n.Reachable → n.encode text = (.ok d', n') →
        ∀ truths answer answer', m'.Answers d truths answer → n'.Answers d' truths answer' →
          ∃ y y', answer = some y ∧ answer' = some y' ∧ Same y y' := by
  cases hparse : (parse text : Except SyntaxError (Expr α)) with
  | error error =>
    rw [encode, compile, hparse] at h
    cases h
  | ok e =>
    refine ⟨e, rfl, fun truths answer => hm.wellFormed.answers_encode hparse h, ?_⟩
    intro n n' d' hn h' truths answer answer' hanswer hanswer'
    obtain ⟨x, y, hx, hy, hsame⟩ := hm.wellFormed.answers_encode hparse h hanswer
    obtain ⟨x', y', hx', hy', hsame'⟩ := hn.wellFormed.answers_encode hparse h' hanswer'
    cases hx.symm.trans hx'
    exact ⟨y, y', hy, hy', hsame.trans hsame'.symm⟩

theorem conjunction_encoding_preserves_meaning :
    let m := ((initial : Manager Float).indicator "q").2
    let e : Expr Float := .apply .and [.variable "p", .apply .not [.variable "q"]]
    let truths := [("q", true), ("p", true), ("q", false)]
    m.Reachable ∧ ∃ d m', m.encode "p && !q" = (.ok d, m') ∧
      ∃ x y, e.value? (fun name => some (ofBool (lastTruth truths name))) = some x ∧
        (m'.after (.indicator "r")).value? (m'.vars.assignment truths) d = some y ∧ Same y x := by
  intro m e truths
  have hm : m.Reachable := ⟨[.indicator "q"], rfl⟩
  have hdepth : Nesting.start.tooDeepAt? Position.start "p && !q".toList = none := by
    decide +kernel
  have hlex : lex "p && !q" = ⟨[⟨⟨1, 1⟩, .name ['p']⟩, ⟨⟨1, 3⟩, .symbol .ampersands⟩,
      ⟨⟨1, 6⟩, .symbol .bang⟩, ⟨⟨1, 7⟩, .name ['q']⟩], ⟨1, 8⟩⟩ := by decide +kernel
  have hparse : parse "p && !q" = .ok e := by
    simp only [parse, parseWith, grammatical, hdepth, hlex]
    rfl
  obtain ⟨d, m', hcompile, -⟩ := hm.wellFormed.compileExpr_encoding (parse_arityCorrect hparse)
  have hencode : m.encode "p && !q" = (.ok d, m') := (compile_of_parse hparse m _).trans hcompile
  obtain ⟨e', hparse', hmeaning, -⟩ := encoding_preserves_meaning hm hencode
  cases hparse.symm.trans hparse'
  exact ⟨hm, d, m', hencode, hmeaning truths _ ⟨[], [.indicator "r"], by simp, by simp, rfl⟩⟩

end Manager

end DecisionDiagrams
