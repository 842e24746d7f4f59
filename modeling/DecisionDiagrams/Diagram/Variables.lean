import Std.Data.HashMap

/-! The variables in the order of their levels, which is the order in which they were first
named. -/
namespace DecisionDiagrams

structure Variables where
  names : Array String
  levels : Std.HashMap String Nat

namespace Variables

def none : Variables := ⟨#[], ∅⟩

def size (v : Variables) : Nat := v.names.size

def level? (v : Variables) (name : String) : Option Nat := v.levels[name]?

def name? (v : Variables) (level : Nat) : Option String := v.names[level]?

/-- The level of a name. A new name gets the next level. -/
def intern (v : Variables) (name : String) : Nat × Variables :=
  match v.levels[name]? with
  | some level => (level, v)
  | .none => (v.size, ⟨v.names.push name, v.levels.insert name v.size⟩)

/-- The assignment that gives the named variables their truth values, of several for one name
the last. Names that are no variables are left out, and all other variables are false. -/
def assignment (v : Variables) (truths : List (String × Bool)) : Array Bool :=
  truths.foldl
    (fun a (name, truth) =>
      match v.levels[name]? with
      | some level => a.setIfInBounds level truth
      | .none => a)
    (.replicate v.size false)

end Variables

end DecisionDiagrams
