import DecisionDiagrams.Diagram.Drawing
import DecisionDiagrams.Proofs.Loop.Calls
import DecisionDiagrams.Proofs.Loop.Nodes
import DecisionDiagrams.Proofs.Loop.Trees

/-! A manager panics only for numbers out of range that it is given itself, and then it is as it was
before. Whatever an expression and an interpretation are, compiling them never panics. -/
namespace DecisionDiagrams

namespace Manager

variable {α : Type} [Scalar α] {m : Manager α}

/-- The names of a tree are found, and then the loop over the tree ends. -/
def CompileEnds (m : Manager α) (e : Expr α) (naming : Naming)
    (outcome : Except Panic (Except CompileError Nat) × Manager α) : Prop :=
  match m.resolve e.names naming with
  | (.error error, m') => outcome = (.ok (.error error), m')
  | (.ok bindings, m') => ∃ result s,
      Ends (TreeLoop.step bindings naming.vocabulary) (.start m'.store e) (result, s) ∧
        outcome = (result, { m' with store := s })

/-- No number out of range is met, and if there is a diagram it is in the table. -/
def StaysInRange (outcome : Except Failure Nat × Manager α) : Prop :=
  outcome.1 ≠ .error .outOfRange ∧ ∀ d, outcome.1 = .ok d → outcome.2.contains d = true

structure Safe (m : Manager α) : Prop where
  compileExpr_ends (e : Expr α) (naming : Naming)
    (outcome : Except Panic (Except CompileError Nat) × Manager α) :
    m.CompileEnds e naming outcome ↔
      outcome = (Panic.answerTree (m.compileExpr e naming).1, (m.compileExpr e naming).2)
  compileExpr_staysInRange (e : Expr α) (naming : Naming) : StaysInRange (m.compileExpr e naming)
  compile_staysInRange (text : String) (naming : Naming) : StaysInRange (m.compile text naming)
  solve_staysInRange (text : String) (given : Bindings) : StaysInRange (m.solve text given)
  encode_staysInRange (text : String) : StaysInRange (m.encode text)
  perform_ends (c : Call) (outcome : Except Panic Nat × Store α) :
    Ends CallLoop.step (.start m.store c) outcome ↔
      outcome = (Panic.answer (m.perform? c).1, (m.perform? c).2.store)
  /-- A call that has no result leaves everything as it was. -/
  perform_none {c : Call} : (m.perform? c).1 = none → (m.perform? c).2 = m
  perform_contains {c : Call} {d : Nat} :
    (m.perform? c).1 = some d → (m.perform? c).2.contains d = true
  combine_eq_none (op : BinaryOp) (f g : Nat) :
    (m.combine op f g).1 = none ↔ m.contains f = false ∨ m.contains g = false
  negate_eq_none (f : Nat) : (m.negate f).1 = none ↔ m.contains f = false
  complement_eq_none (f : Nat) : (m.complement f).1 = none ↔ m.contains f = false
  constant_eq_none (d : Nat) : m.constant? d = none ↔ m.contains d = false
  value_ends (a : Assignment) (d : Nat) (outcome : Except Panic α) :
    Ends (m.table.descend a.truth) d outcome ↔ outcome = Panic.answer (m.value? a d)
  value_eq_none (a : Assignment) (d : Nat) : m.value? a d = none ↔ m.contains d = false
  size_ends (d : Nat) : ∃ r, (∀ outcome,
      Ends (Collecting.step m.table) (.start [d]) outcome ↔ outcome = r) ∧
    r.map Std.TreeSet.size = Panic.answer (m.size? d)
  size_eq_none (d : Nat) : m.size? d = none ↔ m.contains d = false
  dot_ends (roots : List (Nat × String)) : ∃ r, (∀ outcome,
      Ends (Collecting.step m.table) (.start (roots.map Prod.fst)) outcome ↔ outcome = r) ∧
    Collecting.Collects m.table (roots.map Prod.fst) r
  /-- The level of a branch has a name for the drawing. -/
  dot_name {d level : Nat} : m.contains d = true → m.branchLevel? d = some level →
    (m.vars.name? level).isSome
  dot_eq_none (roots : List (Nat × String)) :
    m.dot? roots = none ↔ ∃ root ∈ roots, m.contains root.1 = false

section Answers

omit [Scalar α] in
theorem contains_eq_false_iff {d : Nat} : m.contains d = false ↔ ¬d < m.table.size :=
  decide_eq_false_iff_not

omit [Scalar α] in
theorem about_eq_none_iff {β : Type} {d : Nat} {answer : β} :
    m.table.about d answer = none ↔ m.contains d = false := by
  rw [contains_eq_false_iff, Table.about]
  split
  next hd => simp [hd]
  next hd => simp [hd]

theorem perform?_eq_none_iff {c : Call} : (m.perform? c).1 = none ↔ ¬c.InRange m.table.size := by
  rw [perform?]
  by_cases hc : c.InRange m.store.table.size
  · rw [Store.perform?_of_inRange hc]
    exact iff_of_false nofun (not_not.mpr hc)
  · rw [Store.perform?_of_not_inRange hc]
    exact iff_of_true rfl hc

theorem combine_eq_none_iff {op : BinaryOp} {f g : Nat} :
    (m.combine op f g).1 = none ↔ m.contains f = false ∨ m.contains g = false := by
  rw [combine, perform?_eq_none_iff, contains_eq_false_iff, contains_eq_false_iff]
  exact not_and_or

theorem perform?_unary_eq_none_iff {op : UnaryOp} {f : Nat} :
    (m.perform? (.unary op f)).1 = none ↔ m.contains f = false := by
  rw [perform?_eq_none_iff, contains_eq_false_iff]
  rfl

/-- A call without a result changes nothing. -/
theorem perform?_of_eq_none {c : Call} (h : (m.perform? c).1 = none) : (m.perform? c).2 = m := by
  have hc := perform?_eq_none_iff.mp h
  rw [perform?, Store.perform?_of_not_inRange hc]

theorem dot?_eq_none_iff {roots : List (Nat × String)} :
    m.dot? roots = none ↔ ∃ root ∈ roots, m.contains root.1 = false := by
  rw [dot?]
  split
  next hall =>
    refine iff_of_false nofun ?_
    rintro ⟨root, hroot, hout⟩
    rw [List.all_eq_true.mp hall root hroot] at hout
    cases hout
  next hall =>
    refine iff_of_true rfl ?_
    simpa using hall

/-- The collection of the nodes of a diagram counts them. -/
theorem map_size_of_collects {d : Nat} {r : Except Panic (Std.TreeSet Nat)}
    (h : Collecting.Collects m.table [d] r) :
    r.map Std.TreeSet.size = Panic.answer (m.size? d) := by
  cases r with
  | error panic =>
    obtain ⟨rfl, root, hroot, hlt⟩ := h
    obtain rfl := List.mem_singleton.mp hroot
    rw [size?, about_eq_none_iff.mpr (contains_eq_false_iff.mpr hlt)]
    rfl
  | ok visited =>
    obtain ⟨hroots, -, hvisited⟩ := h
    have hd : d < m.table.size := hroots d (List.mem_singleton_self d)
    have hsize : visited.size = m.table.nodeCount d :=
      (Std.TreeSet.Equiv.of_forall_mem_iff hvisited).size_eq
    rw [size?, Table.about, if_pos hd, ← hsize]
    rfl

end Answers

theorem WellFormed.perform?_contains (hm : m.WellFormed) {c : Call} {d : Nat}
    (h : (m.perform? c).1 = some d) : (m.perform? c).2.contains d = true := by
  by_cases hc : c.InRange m.store.table.size
  · rw [Manager.perform?, Store.perform?_of_inRange hc] at h ⊢
    cases h
    exact decide_eq_true (hm.store.closed.ends_perform hc).2
  · rw [perform?_eq_none_iff.mpr hc] at h
    cases h

/-- A branch in the table tests a level that has a name. -/
theorem WellFormed.isSome_name? (hm : m.WellFormed) {d level : Nat} (hd : m.contains d = true)
    (h : m.branchLevel? d = some level) : (m.vars.name? level).isSome := by
  unfold branchLevel? at h
  split at h
  next => cases h
  next hn =>
    cases h
    obtain ⟨-, hlevel, -, -⟩ := hm.table.branch_fits (lt_of_contains hd) hn
    exact Option.isSome_iff_exists.mpr (Variables.exists_name?.mpr hlevel)

variable [LawfulScalar α]

/-- The loop over a tree ends with the outcome of compiling the tree. -/
theorem WellFormed.compileEnds_iff (hm : m.WellFormed) {e : Expr α} {naming : Naming}
    {outcome : Except Panic (Except CompileError Nat) × Manager α} :
    m.CompileEnds e naming outcome ↔
      outcome = (Panic.answerTree (m.compileExpr e naming).1, (m.compileExpr e naming).2) := by
  have hkeeps := hm.resolve e.names naming
  unfold CompileEnds Manager.compileExpr
  rcases hresolve : m.resolve e.names naming with ⟨error | bindings, m'⟩
  · rfl
  · rw [hresolve] at hkeeps
    have hends := TreeLoop.ends_evaluate hkeeps.wellFormed.store bindings naming.vocabulary e
    constructor
    · rintro ⟨result, s, h, rfl⟩
      cases h.unique hends
      rfl
    · rintro rfl
      exact ⟨_, _, hends, rfl⟩

theorem WellFormed.compileExpr_staysInRange (hm : m.WellFormed) (e : Expr α) (naming : Naming) :
    StaysInRange (m.compileExpr e naming) := by
  have hkeeps := hm.resolve e.names naming
  rw [Manager.compileExpr]
  split
  next error m' _ => exact ⟨by simp, by simp⟩
  next bindings m' hresolve =>
    rw [hresolve] at hkeeps
    have hm' : m'.WellFormed := hkeeps.wellFormed
    have hrange := hm'.store.evaluateExpr_inRange naming.vocabulary (hm.resolve_inRange hresolve)
    rw [Manager.evaluate, Store.evaluate_eq]
    rcases heval : m'.store.evaluateExpr bindings naming.vocabulary e with ⟨failure | d, s⟩
    · rw [heval] at hrange
      exact ⟨fun h => hrange (Except.error.inj h), by simp⟩
    · rw [heval] at hrange
      refine ⟨by simp, fun d' hd' => ?_⟩
      cases hd'
      exact decide_eq_true hrange

theorem WellFormed.compile_staysInRange (hm : m.WellFormed) (text : String) (naming : Naming) :
    StaysInRange (m.compile text naming) := by
  rw [Manager.compile]
  split
  next => exact ⟨by simp, by simp⟩
  next e _ => exact hm.compileExpr_staysInRange e naming

/-- Every manager is safe, whatever has been asked of it before. -/
theorem Reachable.safe (hm : m.Reachable) : m.Safe := by
  have hwell := hm.wellFormed
  have hclosed := hwell.store.closed
  exact
    { compileExpr_ends := fun e naming outcome => hwell.compileEnds_iff
      compileExpr_staysInRange := hwell.compileExpr_staysInRange
      compile_staysInRange := hwell.compile_staysInRange
      solve_staysInRange := fun text given => hwell.compile_staysInRange text _
      encode_staysInRange := fun text => hwell.compile_staysInRange text _
      perform_ends := fun c outcome => (hclosed.ends_perform? c).iff_eq
      perform_none := perform?_of_eq_none
      perform_contains := hwell.perform?_contains
      combine_eq_none := fun op f g => combine_eq_none_iff
      negate_eq_none := fun f => perform?_unary_eq_none_iff
      complement_eq_none := fun f => perform?_unary_eq_none_iff
      constant_eq_none := fun d => about_eq_none_iff
      value_ends := fun a d outcome => (m.table.ends_descend a.truth d).iff_eq
      value_eq_none := fun a d => about_eq_none_iff
      size_ends := fun d => by
        obtain ⟨r, hends, hr⟩ := (Collecting.start_invariant m.table [d]).exists_ends
        exact ⟨r, fun outcome => hends.iff_eq, map_size_of_collects hr⟩
      size_eq_none := fun d => about_eq_none_iff
      dot_ends := fun roots => by
        obtain ⟨r, hends, hr⟩ :=
          (Collecting.start_invariant m.table (roots.map Prod.fst)).exists_ends
        exact ⟨r, fun outcome => hends.iff_eq, hr⟩
      dot_name := hwell.isSome_name?
      dot_eq_none := fun roots => dot?_eq_none_iff }

theorem Reachable.safe_after_clear :
    let m := (initial : Manager Float).afterAll [.indicator "p", .clear]
    m.Reachable ∧ m.Safe ∧ m.contains m.nodeCount = false ∧
      (m.combine .add m.nodeCount Table.one).1 = none := by
  intro m
  have hm : m.Reachable := ⟨[.indicator "p", .clear], rfl⟩
  have hsafe : m.Safe := Reachable.safe hm
  have hout : m.contains m.nodeCount = false := decide_eq_false (Nat.lt_irrefl _)
  exact ⟨hm, hsafe, hout, (hsafe.combine_eq_none .add _ _).mpr (.inl hout)⟩

end Manager

end DecisionDiagrams
