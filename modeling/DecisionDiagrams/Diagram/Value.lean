import DecisionDiagrams.Diagram.Table

/-! The value of a diagram under an assignment of truth values to the levels. -/
namespace DecisionDiagrams

/-- The truth values of the levels from the first one on. -/
abbrev Assignment := Array Bool

/-- Levels past the end of an assignment are false. -/
def Assignment.truth (a : Assignment) (level : Nat) : Bool := a.getD level false

namespace Table

variable {α : Type} [Scalar α]

/-- The value at the end of the path that the levels choose. -/
def value (t : Table α) (truth : Nat → Bool) (d : Nat) : α :=
  match _h : t.node d with
  | .terminal x => x
  | .branch level low high => if truth level then t.value truth high else t.value truth low
termination_by d
decreasing_by
  · exact (child_lt _h).2
  · exact (child_lt _h).1

theorem value_terminal {t : Table α} {d : Nat} {x : α} (h : t.node d = .terminal x)
    (truth : Nat → Bool) : t.value truth d = x := by
  rw [value]; split <;> simp_all

theorem value_branch {t : Table α} {d level low high : Nat}
    (h : t.node d = .branch level low high) (truth : Nat → Bool) :
    t.value truth d = if truth level then t.value truth high else t.value truth low := by
  rw [value]; split <;> simp_all

def constant? (t : Table α) (d : Nat) : Option α :=
  match t.node d with
  | .terminal x => some x
  | .branch _ _ _ => none

end Table

end DecisionDiagrams
