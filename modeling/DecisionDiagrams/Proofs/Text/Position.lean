import DecisionDiagrams.Text.Position
import Mathlib.Data.List.DropRight

/-! The place behind a text, counted over the text as a whole. -/
namespace DecisionDiagrams.Position

/-- Every line feed ends a line, and the column counts the characters since the last one. -/
theorem afterAll_start (cs : List Char) :
    start.afterAll cs = ⟨cs.count '\n' + 1, (cs.rtakeWhile (· ≠ '\n')).length + 1⟩ := by
  induction cs using List.reverseRecOn with
  | nil => rfl
  | append_singleton cs c ih =>
    rw [afterAll_append, ih, afterAll_cons, afterAll_nil, List.count_append]
    by_cases hc : c = '\n'
    · subst hc
      rw [after_lineFeed, List.rtakeWhile_concat_neg _ _ _ (by simp)]
      rfl
    · rw [after_of_ne hc, List.rtakeWhile_concat_pos _ _ _ (by simpa using hc)]
      simp [hc]

/-- The place behind a text in which a carriage return and a line feed end one line together. -/
def afterLines (p : Position) : List Char → Position
  | [] => p
  | '\r' :: '\n' :: cs => afterLines ⟨p.line + 1, 1⟩ cs
  | '\n' :: cs => afterLines ⟨p.line + 1, 1⟩ cs
  | _ :: cs => afterLines ⟨p.line, p.column + 1⟩ cs

/-- The carriage return counts in no column that is left. -/
theorem afterLines_eq (p : Position) (cs : List Char) : p.afterLines cs = p.afterAll cs := by
  fun_induction afterLines p cs with
  | case1 p => rfl
  | case2 p cs ih => exact ih
  | case3 p cs ih => exact ih
  | case4 p c cs _ hc ih => rw [ih, afterAll_cons, after_of_ne hc]

end DecisionDiagrams.Position
