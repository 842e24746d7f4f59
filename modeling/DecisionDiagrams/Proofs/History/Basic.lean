import DecisionDiagrams.Proofs.Compile.Naming

/-! Histories of a manager. Whatever has been asked of it, also in vain, it is well-formed, and
unless it is cleared it keeps all its diagrams and variables. -/
namespace DecisionDiagrams

inductive Request (α : Type) where
  | constant (x : α)
  | indicator (name : String)
  | combine (op : BinaryOp) (f g : Nat)
  | negate (f : Nat)
  | complement (f : Nat)
  | resolve (names : Std.TreeSet String) (naming : Naming)
  | evaluate (bindings : Bindings) (vocabulary : Vocabulary) (e : Expr α)
  | compileExpr (e : Expr α) (naming : Naming)
  | compile (text : String) (naming : Naming)
  | solve (text : String) (given : Bindings)
  | solveConstant (text : String)
  | encode (text : String)
  /-- Starts over with a new manager. -/
  | clear

namespace Manager

variable {α : Type} [Scalar α]

def after (m : Manager α) : Request α → Manager α
  | .constant x => (m.constant x).2
  | .indicator name => (m.indicator name).2
  | .combine op f g => (m.combine op f g).2
  | .negate f => (m.negate f).2
  | .complement f => (m.complement f).2
  | .resolve names naming => (m.resolve names naming).2
  | .evaluate bindings vocabulary e => (m.evaluate bindings vocabulary e).2
  | .compileExpr e naming => (m.compileExpr e naming).2
  | .compile text naming => (m.compile text naming).2
  | .solve text given => (m.solve text given).2
  | .solveConstant text => (m.solveConstant text).2
  | .encode text => (m.encode text).2
  | .clear => initial

def afterAll (m : Manager α) (requests : List (Request α)) : Manager α := requests.foldl after m

/-- Some requests lead from a new manager to this one. -/
def Reachable (m : Manager α) : Prop := ∃ requests, m = initial.afterAll requests

theorem Reachable.afterAll {m : Manager α} (hm : m.Reachable) (requests : List (Request α)) :
    (m.afterAll requests).Reachable := by
  obtain ⟨earlier, rfl⟩ := hm
  exact ⟨earlier ++ requests, List.foldl_append.symm⟩

variable [LawfulScalar α] {m : Manager α}

namespace WellFormed

theorem keeps_after (hm : m.WellFormed) {r : Request α} (hr : r ≠ .clear) :
    m.Keeps (m.after r) := by
  cases r with
  | constant x => exact hm.constant x
  | indicator name => exact hm.indicator name
  | combine op f g => exact hm.perform? _
  | negate f => exact hm.perform? _
  | complement f => exact hm.perform? _
  | resolve names naming => exact hm.resolve names naming
  | evaluate bindings vocabulary e => exact hm.evaluate bindings vocabulary e
  | compileExpr e naming => exact hm.compileExpr e naming
  | compile text naming => exact hm.compile text naming
  | solve text given => exact hm.compile text _
  | solveConstant text => exact hm.compile text _
  | encode text => exact hm.compile text _
  | clear => exact absurd rfl hr

theorem after (hm : m.WellFormed) (r : Request α) : (m.after r).WellFormed := by
  by_cases hr : r = .clear
  · subst hr
    exact initial_wellFormed
  · exact (hm.keeps_after hr).wellFormed

theorem afterAll (hm : m.WellFormed) (requests : List (Request α)) :
    (m.afterAll requests).WellFormed := by
  induction requests generalizing m with
  | nil => exact hm
  | cons r requests ih => exact ih (hm.after r)

theorem keeps_afterAll (hm : m.WellFormed) {requests : List (Request α)}
    (h : ∀ r ∈ requests, r ≠ .clear) : m.Keeps (m.afterAll requests) := by
  induction requests generalizing m with
  | nil => exact hm.keeps
  | cons r requests ih =>
    obtain ⟨hr, hrest⟩ := List.forall_mem_cons.mp h
    have hkeeps := hm.keeps_after hr
    exact hkeeps.trans (ih hkeeps.wellFormed hrest)

end WellFormed

theorem Reachable.wellFormed (hm : m.Reachable) : m.WellFormed := by
  obtain ⟨requests, rfl⟩ := hm
  exact initial_wellFormed.afterAll requests

end Manager

end DecisionDiagrams
