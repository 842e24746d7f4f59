import DecisionDiagrams.Proofs.Diagram.Cofactors
import DecisionDiagrams.Proofs.History.Permanence

/-! Diagrams are as small as they can be. Whatever has been asked of a manager before, a diagram has
one node for each function that is left when its first variables are held fixed, and it tests the
variables that its function depends on. -/
namespace DecisionDiagrams

open Scalar

/-- The truth values `first` for the first levels, and those of `a` for all others. -/
def Assignment.onto (first a : Assignment) : Assignment := first ++ a.extract first.size a.size

theorem Assignment.truth_onto (first a : Assignment) :
    (first.onto a).truth = fixBelow first.size first.truth a.truth := by
  funext level
  simp only [truth, onto, fixBelow, Array.getD_eq_getD_getElem?, Array.getElem?_append,
    Array.getElem?_extract]
  split
  next => rfl
  next h =>
    rw [Nat.add_sub_cancel' (Nat.le_of_not_lt h), Nat.min_self]
    split
    next => rfl
    next hlevel => rw [Array.getElem?_eq_none (by omega)]

theorem fixBelow_truth_ofTruth (n : Nat) (first rest : Nat → Bool) :
    fixBelow n (Assignment.ofTruth n first).truth rest = fixBelow n first rest := by
  funext level
  unfold fixBelow
  split
  next h => exact Assignment.truth_ofTruth h first
  next => rfl

namespace Table

/-- A diagram has as many nodes as can be reached from it. -/
theorem nodeCount_eq_ncard {α : Type} [Scalar α] (t : Table α) (d : Nat) :
    t.nodeCount d = {r | t.Reaches d r}.ncard := by
  have hnodes : {r | t.Reaches d r} = ↑(t.nodes d) := by
    ext r
    exact mem_nodes.symm
  rw [hnodes, Set.ncard_coe_finset, card_nodes]

end Table

namespace Manager

variable {α : Type} [Scalar α]

/-- The function that is left of a diagram when its first variables are held fixed. All NaNs are one
value. -/
def restriction (m : Manager α) (d : Nat) (first : Assignment) : Assignment → Option α :=
  fun a => (m.value? (first.onto a) d).map canonical

/-- The functions that are left of a diagram, over all numbers of variables that are held fixed and
all their truth values. -/
def restrictions (m : Manager α) (d : Nat) : Set (Assignment → Option α) :=
  {F | ∃ first : Assignment, first.size ≤ m.variableCount ∧ F = m.restriction d first}

variable {m m' : Manager α} {d d' : Nat}

theorem WellFormed.restriction_eq (hm : m.WellFormed) (hd : d < m.table.size)
    (first : Assignment) : m.restriction d first =
      fun a => some (m.table.value (fixBelow first.size first.truth a.truth) d) := by
  funext a
  rw [restriction, value?_of_lt hd, Option.map_some, hm.table.canonical_value _ hd,
    Assignment.truth_onto]

/-- The functions that are left of a diagram are those of its nodes. -/
theorem WellFormed.restrictions_eq_image (hm : m.WellFormed) (hd : d < m.table.size) :
    m.restrictions d = (fun r a => m.value? a r) '' {r | m.table.Reaches d r} := by
  ext F
  constructor
  · rintro ⟨first, -, rfl⟩
    obtain ⟨r, hreaches, hr⟩ := hm.table.exists_reaches_of_fixed hd first.size first.truth
    refine ⟨r, hreaches, ?_⟩
    rw [hm.restriction_eq hd]
    funext a
    rw [← hr]
    exact value?_of_lt (hreaches.le.trans_lt hd) a
  · rintro ⟨r, hreaches, rfl⟩
    have hr := hreaches.le.trans_lt hd
    obtain ⟨first, hfirst⟩ := hm.table.exists_fixed_of_reaches hd hreaches
    refine ⟨.ofTruth (m.table.depth m.vars.size r) first, ?_, ?_⟩
    · rw [Assignment.size_ofTruth]
      exact hm.table.depth_le hr
    · rw [hm.restriction_eq hd]
      funext a
      simp only [value?_of_lt hr, Assignment.size_ofTruth, fixBelow_truth_ofTruth, hfirst]

theorem WellFormed.finite_restrictions (hm : m.WellFormed) (hd : d < m.table.size) :
    (m.restrictions d).Finite := by
  have hnodes : {r | m.table.Reaches d r}.Finite :=
    .ofFinset (m.table.nodes d) fun r => Table.mem_nodes
  rw [hm.restrictions_eq_image hd]
  exact hnodes.image _

variable [LawfulScalar α]

theorem WellFormed.size?_eq_ncard (hm : m.WellFormed) (hd : d < m.table.size) :
    m.size? d = some (m.restrictions d).ncard := by
  have hinjective : Set.InjOn (fun r a => m.value? a r) {r | m.table.Reaches d r} := by
    intro r hr r' hr' heq
    have hlt := Table.Reaches.le hr |>.trans_lt hd
    have hlt' := Table.Reaches.le hr' |>.trans_lt hd
    refine hm.table.eq_of_assignments hlt hlt' fun a => ?_
    have hvalue := congrFun heq a
    simp only [value?_of_lt hlt, value?_of_lt hlt'] at hvalue
    exact Option.some.inj hvalue
  rw [size?, Table.about, if_pos hd, Table.nodeCount_eq_ncard, hm.restrictions_eq_image hd,
    hinjective.ncard_image]

/-- A diagram tests a level exactly if two assignments that differ on this level only tell its
values apart. -/
theorem WellFormed.tests_iff (hm : m.WellFormed) (hd : d < m.table.size) (level : Nat) :
    (∃ r low high, m.table.Reaches d r ∧ m.table.node r = .branch level low high) ↔
      ∃ a b : Assignment, a.size = b.size ∧ (∀ l, l ≠ level → a[l]? = b[l]?) ∧
        ∃ x y, m.value? a d = some x ∧ m.value? b d = some y ∧ ¬Same x y := by
  constructor
  · rintro ⟨r, low, high, hreaches, hn⟩
    obtain ⟨truth, truth', hagree, hne⟩ := hm.table.exists_value_ne_of_branch hd hreaches hn
    refine ⟨.ofTruth m.vars.size truth, .ofTruth m.vars.size truth', ?_, fun l hl => ?_, _, _,
      value?_of_lt hd _, value?_of_lt hd _, fun hsame => hne ?_⟩
    · rw [Assignment.size_ofTruth, Assignment.size_ofTruth]
    · rw [Assignment.getElem?_ofTruth, Assignment.getElem?_ofTruth, hagree l hl]
    · rw [hm.table.value_ofTruth truth hd, hm.table.value_ofTruth truth' hd] at hsame
      rw [← hm.table.canonical_value truth hd, ← hm.table.canonical_value truth' hd]
      exact canonical_eq_iff.mpr hsame
  · rintro ⟨a, b, -, hagree, x, y, hx, hy, hne⟩
    rw [value?_of_lt hd] at hx hy
    cases hx
    cases hy
    have htruth (l : Nat) (hl : l ≠ level) : a.truth l = b.truth l := by
      rw [Assignment.truth, Assignment.truth, Array.getD_eq_getD_getElem?,
        Array.getD_eq_getD_getElem?, hagree l hl]
    exact Table.exists_branch_of_value_ne htruth fun heq => hne (heq ▸ .refl _)

/-- What is left of a diagram depends on its function only. -/
theorem restrictions_congr (hnames : m.vars.names = m'.vars.names)
    (h : ∀ a : Assignment, ∃ x y, m.value? a d = some x ∧ m'.value? a d' = some y ∧ Same x y) :
    m.restrictions d = m'.restrictions d' := by
  have hcount : m.variableCount = m'.variableCount := congrArg Array.size hnames
  have hrestriction : m.restriction d = m'.restriction d' := by
    funext first a
    obtain ⟨x, y, hx, hy, hsame⟩ := h (first.onto a)
    rw [restriction, restriction, hx, hy, Option.map_some, Option.map_some,
      canonical_eq_iff.mpr hsame]
  rw [restrictions, restrictions, hcount, hrestriction]

/-- A diagram has one node for each function that is left when its first variables are held fixed,
and tests the variables that matter to its values. So a function has diagrams of one size in all
managers that have the same variables in the same order, whatever has been asked of them. -/
theorem diagrams_minimal (hm : m.Reachable) :
    (∀ d, m.contains d = true → (m.restrictions d).Finite ∧
      m.size? d = some (m.restrictions d).ncard ∧ ∀ level, (∃ r low high,
        m.table.Reaches d r ∧ m.table.node r = .branch level low high) ↔
          ∃ a b : Assignment, a.size = b.size ∧ (∀ l, l ≠ level → a[l]? = b[l]?) ∧
            ∃ x y, m.value? a d = some x ∧ m.value? b d = some y ∧ ¬Same x y) ∧
    ∀ m' : Manager α, m'.Reachable → m.vars.names = m'.vars.names → ∀ d d',
      m.contains d = true → m'.contains d' = true →
      (∀ a : Assignment, ∃ x y, m.value? a d = some x ∧ m'.value? a d' = some y ∧ Same x y) →
        m.size? d = m'.size? d' := by
  have hwell := hm.wellFormed
  constructor
  · intro d hd
    have hlt := lt_of_contains hd
    exact ⟨hwell.finite_restrictions hlt, hwell.size?_eq_ncard hlt, hwell.tests_iff hlt⟩
  · intro m' hm' hnames d d' hd hd' hsame
    rw [hwell.size?_eq_ncard (lt_of_contains hd),
      hm'.wellFormed.size?_eq_ncard (lt_of_contains hd'), restrictions_congr hnames hsame]

theorem WellFormed.value_indicator (hm : m.WellFormed) (name : String) (truth : Nat → Bool) :
    (m.indicator name).2.table.value truth (m.indicator name).1 =
      ofBool (truth (m.vars.intern name).1) := by
  have hputs := hm.puts_indicator name
  rw [Table.value_branch hputs.node, Table.value_terminal hputs.wellFormed.node_zero,
    Table.value_terminal hputs.wellFormed.node_one]
  rfl

theorem indicator_minimal :
    let m := ((initial : Manager Float).indicator "p").2
    let p := ((initial : Manager Float).indicator "p").1
    let m' := (((initial : Manager Float).constant 2).2.indicator "p").2
    let p' := (((initial : Manager Float).constant 2).2.indicator "p").1
    m.Reachable ∧ m'.Reachable ∧ m.vars.names = m'.vars.names ∧ m.contains p = true ∧
      m'.contains p' = true ∧
      (∀ a : Assignment, ∃ x y, m.value? a p = some x ∧ m'.value? a p' = some y ∧ Same x y) ∧
      m.size? p = m'.size? p' ∧ m.size? p = some (m.restrictions p).ncard := by
  intro m p m' p'
  have hm : m.Reachable := ⟨[.indicator "p"], rfl⟩
  have hm' : m'.Reachable := ⟨[.constant 2, .indicator "p"], rfl⟩
  have hold := (initial_wellFormed (α := Float))
  have hnew := (hold.constant 2).wellFormed
  have hp := (hold.puts_indicator "p").lt_size
  have hp' := (hnew.puts_indicator "p").lt_size
  have hsame (a : Assignment) :
      ∃ x y, m.value? a p = some x ∧ m'.value? a p' = some y ∧ Same x y := by
    refine ⟨_, _, value?_of_lt hp a, value?_of_lt hp' a, .inl ?_⟩
    exact (hold.value_indicator "p" a.truth).trans (hnew.value_indicator "p" a.truth).symm
  obtain ⟨hdiagrams, hmanagers⟩ := diagrams_minimal hm
  have hcontains : m.contains p = true := decide_eq_true hp
  have hcontains' : m'.contains p' = true := decide_eq_true hp'
  exact ⟨hm, hm', rfl, hcontains, hcontains', hsame,
    hmanagers m' hm' rfl p p' hcontains hcontains' hsame, (hdiagrams p hcontains).2.1⟩

end Manager

end DecisionDiagrams
