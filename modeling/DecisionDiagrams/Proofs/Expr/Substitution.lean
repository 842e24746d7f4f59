import DecisionDiagrams.Proofs.Expr.Meaning
import Mathlib.Logic.Function.Basic

/-! Trees that are put in for a name. The value of the whole is that of the tree around it, in which
the name has the value of the tree put in. -/
namespace DecisionDiagrams

namespace Expr

variable {α : Type}

mutual

def substitute (e : Expr α) (x : String) (t : Expr α) : Expr α :=
  match e with
  | .literal y => .literal y
  | .variable name => if name = x then t else .variable name
  | .apply op operands => .apply op (substituteAll operands x t)

def substituteAll (trees : List (Expr α)) (x : String) (t : Expr α) : List (Expr α) :=
  match trees with
  | [] => []
  | tree :: trees => tree.substitute x t :: substituteAll trees x t

end

theorem substituteAll_eq_map (trees : List (Expr α)) (x : String) (t : Expr α) :
    substituteAll trees x t = trees.map fun e => e.substitute x t := by
  induction trees with
  | nil => rfl
  | cons tree trees ih => rw [substituteAll, ih, List.map_cons]

variable {x : String} {t e : Expr α}

theorem ArityCorrect.substitute (he : e.ArityCorrect) (ht : t.ArityCorrect) :
    (e.substitute x t).ArityCorrect := by
  induction he with
  | literal y => exact .literal y
  | «variable» name =>
    rw [Expr.substitute]
    split
    · exact ht
    · exact .variable name
  | apply hlength _ ih =>
    rw [Expr.substitute, substituteAll_eq_map]
    refine .apply (by rw [List.length_map, hlength]) ?_
    intro e' he'
    obtain ⟨e, he, rfl⟩ := List.mem_map.mp he'
    exact ih e he

mutual

/-- The names of the whole are those around the tree put in, and those of that tree. -/
theorem Mentions.of_substitute {name : String} {e : Expr α} (h : (e.substitute x t).Mentions name) :
    (e.Mentions name ∧ name ≠ x) ∨ t.Mentions name := by
  cases e with
  | literal y => exact absurd h mentions_literal
  | «variable» name' =>
    rw [substitute] at h
    split at h
    next => exact .inr h
    next hne =>
      obtain rfl := mentions_variable.mp h
      exact .inl ⟨.variable, hne⟩
  | apply op operands =>
    rw [substitute, mentions_apply] at h
    obtain ⟨e', he', hname⟩ := h
    rcases Mentions.of_substituteAll he' hname with ⟨⟨e, he, hmentions⟩, hne⟩ | ht
    · exact .inl ⟨.operand he hmentions, hne⟩
    · exact .inr ht

theorem Mentions.of_substituteAll {name : String} {trees : List (Expr α)} {e' : Expr α}
    (he' : e' ∈ substituteAll trees x t) (h : e'.Mentions name) :
    ((∃ e ∈ trees, e.Mentions name) ∧ name ≠ x) ∨ t.Mentions name := by
  cases trees with
  | nil => cases he'
  | cons tree trees =>
    rcases List.mem_cons.mp he' with rfl | he'
    · rcases Mentions.of_substitute h with ⟨hmentions, hne⟩ | ht
      · exact .inl ⟨⟨tree, List.mem_cons_self, hmentions⟩, hne⟩
      · exact .inr ht
    · rcases Mentions.of_substituteAll he' h with ⟨⟨e, he, hmentions⟩, hne⟩ | ht
      · exact .inl ⟨⟨e, List.mem_cons_of_mem tree he, hmentions⟩, hne⟩
      · exact .inr ht

end

variable [Scalar α] (env : String → Option α)

mutual

/-- A tree put in for a name counts by its value only. -/
theorem value?_substitute (e : Expr α) :
    (e.substitute x t).value? env = e.value? (Function.update env x (t.value? env)) := by
  cases e with
  | literal y => rfl
  | «variable» name =>
    rw [substitute, value?]
    split
    next hname => rw [hname, Function.update_self]
    next hname => rw [Function.update_of_ne hname, value?]
  | apply op operands => rw [substitute, value?, value?, values?_substituteAll operands]

theorem values?_substituteAll (trees : List (Expr α)) :
    values? env (substituteAll trees x t) =
      values? (Function.update env x (t.value? env)) trees := by
  cases trees with
  | nil => rfl
  | cons tree trees =>
    rw [substituteAll, values?, values?, value?_substitute tree, values?_substituteAll trees]

end

end Expr

end DecisionDiagrams
