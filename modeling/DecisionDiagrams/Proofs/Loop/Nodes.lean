import DecisionDiagrams.Proofs.History.Invariant
import DecisionDiagrams.Proofs.Loop.Basic
import Mathlib.Data.Finset.Card

/-! The loops over the nodes of diagrams. One goes down to a value, and one collects all nodes with
a stack of those that it has still to look at. The sweep over the table finds the same nodes. -/
namespace DecisionDiagrams

namespace Table

variable {α : Type} [Scalar α] {t : Table α}

section Children

def IsChild (t : Table α) (d child : Nat) : Prop :=
  ∃ level low high, t.node d = .branch level low high ∧ (child = low ∨ child = high)

theorem IsChild.lt {d child : Nat} (h : t.IsChild d child) : child < d := by
  obtain ⟨level, low, high, hn, rfl | rfl⟩ := h
  · exact (child_lt hn).1
  · exact (child_lt hn).2

theorem reaches_iff {d r : Nat} :
    t.Reaches d r ↔ r = d ∨ ∃ child, t.IsChild d child ∧ t.Reaches child r := by
  constructor
  · intro h
    cases h with
    | refl => exact .inl rfl
    | low hn h => exact .inr ⟨_, ⟨_, _, _, hn, .inl rfl⟩, h⟩
    | high hn h => exact .inr ⟨_, ⟨_, _, _, hn, .inr rfl⟩, h⟩
  · rintro (rfl | ⟨child, ⟨level, low, high, hn, rfl | rfl⟩, h⟩)
    · exact .refl r
    · exact .low hn h
    · exact .high hn h

theorem Reaches.le {d r : Nat} (h : t.Reaches d r) : r ≤ d := by
  induction h with
  | refl d => exact le_rfl
  | low hn _ ih => exact ih.trans (child_lt hn).1.le
  | high hn _ ih => exact ih.trans (child_lt hn).2.le

theorem Reaches.trans {d r r' : Nat} (h : t.Reaches d r) (h' : t.Reaches r r') :
    t.Reaches d r' := by
  induction h with
  | refl d => exact h'
  | low hn _ ih => exact .low hn (ih h')
  | high hn _ ih => exact .high hn (ih h')

theorem Reaches.trans_child {d r child : Nat} (h : t.Reaches d r) (hchild : t.IsChild r child) :
    t.Reaches d child := h.trans (reaches_iff.mpr (.inr ⟨child, hchild, .refl child⟩))

theorem reaches_cofactor (t : Table α) (level : Nat) (side : Bool) (d : Nat) :
    t.Reaches d (t.cofactor level side d) := by
  by_cases h : t.level? d = some level
  · obtain ⟨low, high, hn⟩ := exists_branch_of_level? h
    rw [cofactor_branch hn]
    cases side
    · exact .low hn (.refl low)
    · exact .high hn (.refl high)
  · rw [cofactor_of_ne h]
    exact .refl d

variable {t' : Table α}

theorem Grows.isChild_iff (h : t.Grows t') {d child : Nat} (hd : d < t.size) :
    t'.IsChild d child ↔ t.IsChild d child := by
  rw [IsChild, IsChild, h.node hd]

/-- No new node can be reached from an old one. -/
theorem Grows.reaches_iff (h : t.Grows t') {d r : Nat} (hd : d < t.size) :
    t'.Reaches d r ↔ t.Reaches d r := by
  induction d using Nat.strongRecOn with
  | ind d ih =>
    rw [Table.reaches_iff, Table.reaches_iff]
    refine or_congr_right (exists_congr fun child => ?_)
    rw [h.isChild_iff hd]
    exact and_congr_right fun hchild => ih child hchild.lt (hchild.lt.trans hd)

end Children

section Sweep

theorem mem_addChildren {found : Std.TreeSet Nat} {d child : Nat} :
    child ∈ addChildren found (t.node d) ↔ child ∈ found ∨ t.IsChild d child := by
  unfold addChildren IsChild
  split
  next hn => simp [hn]
  next level low high hn =>
    simp only [Std.TreeSet.mem_insert, Std.LawfulEqCmp.compare_eq_iff_eq, hn, Node.branch.injEq]
    grind

theorem mem_sweep {n : Nat} {found : Std.TreeSet Nat} {d : Nat} :
    d ∈ t.sweep n found ↔ d ∈ found ∨ ∃ r ∈ found, r < n ∧ t.Reaches r d := by
  induction n generalizing found with
  | zero => simp [sweep]
  | succ n ih =>
    rw [sweep, ih]
    split
    next hn =>
      constructor
      · rintro (h | ⟨r, hr, hlt, hreaches⟩)
        · rcases mem_addChildren.mp h with h | hchild
          · exact .inl h
          · exact .inr ⟨n, hn, n.lt_succ_self, reaches_iff.mpr (.inr ⟨d, hchild, .refl d⟩)⟩
        · rcases mem_addChildren.mp hr with hr | hchild
          · exact .inr ⟨r, hr, Nat.lt_succ_of_lt hlt, hreaches⟩
          · exact .inr ⟨n, hn, n.lt_succ_self, reaches_iff.mpr (.inr ⟨r, hchild, hreaches⟩)⟩
      · rintro (h | ⟨r, hr, hlt, hreaches⟩)
        · exact .inl (mem_addChildren.mpr (.inl h))
        · rcases Nat.lt_succ_iff_lt_or_eq.mp hlt with hlt | rfl
          · exact .inr ⟨r, mem_addChildren.mpr (.inl hr), hlt, hreaches⟩
          · rcases reaches_iff.mp hreaches with rfl | ⟨child, hchild, hreaches⟩
            · exact .inl (mem_addChildren.mpr (.inl hr))
            · exact .inr ⟨child, mem_addChildren.mpr (.inr hchild), hchild.lt, hreaches⟩
    next hn =>
      refine or_congr_right (exists_congr fun r => and_congr_right fun hr => ?_)
      have hne : r ≠ n := fun heq => hn (heq ▸ hr)
      exact and_congr_left fun _ => by omega

/-- The sweep finds the nodes that a path leads to from a root. -/
theorem mem_reachable {roots : List Nat} {d : Nat} :
    d ∈ t.reachable roots ↔ ∃ root ∈ roots, t.Reaches root d := by
  rw [reachable, mem_sweep]
  have hroots (r : Nat) : r ∈ Std.TreeSet.ofList roots ↔ r ∈ roots := by
    rw [Std.TreeSet.mem_ofList, List.contains_iff_mem]
  simp only [hroots]
  constructor
  · rintro (h | ⟨r, hr, -, hreaches⟩)
    · exact ⟨d, h, .refl d⟩
    · exact ⟨r, hr, hreaches⟩
  · rintro ⟨root, hroot, hreaches⟩
    by_cases hlt : root < t.size
    · exact .inr ⟨root, hroot, hlt, hreaches⟩
    · -- A number out of range reads as a terminal, so that it reaches itself only.
      have hnode : t.node root = .terminal Scalar.zero := by
        rw [node, Array.getElem?_eq_none (Nat.le_of_not_lt hlt), Option.elim_none]
      rcases reaches_iff.mp hreaches with rfl | ⟨child, ⟨_, _, _, hn, -⟩, -⟩
      · exact .inl hroot
      · rw [hnode] at hn
        cases hn

end Sweep

section Count

def nodes (t : Table α) (d : Nat) : Finset Nat := (t.reachable [d]).toList.toFinset

theorem mem_nodes {d r : Nat} : r ∈ t.nodes d ↔ t.Reaches d r := by
  simp [nodes, mem_reachable]

theorem Grows.nodes_eq {t' : Table α} (h : t.Grows t') {d : Nat} (hd : d < t.size) :
    t'.nodes d = t.nodes d := by
  ext r
  rw [mem_nodes, mem_nodes, h.reaches_iff hd]

theorem card_nodes (t : Table α) (d : Nat) : (t.nodes d).card = t.nodeCount d := by
  have hnodup : (t.reachable [d]).toList.Nodup := by
    refine Std.TreeSet.distinct_toList.imp fun h heq => h ?_
    rw [heq]
    exact Std.ReflCmp.compare_self
  rw [nodes, List.toFinset_card_of_nodup hnodup, Std.TreeSet.length_toList]
  rfl

end Count

/-- Goes down to the value at the end of the path that the levels choose. -/
def descend (t : Table α) (truth : Nat → Bool) (d : Nat) : Except Panic α ⊕ Nat :=
  match t.read? d with
  | some (.terminal x) => .inl (.ok x)
  | some (.branch level low high) => .inr (if truth level then high else low)
  | none => .inl (.error .outOfRange)

/-- The descent from a number out of range panics at once, and any other comes to the value. -/
theorem ends_descend (t : Table α) (truth : Nat → Bool) (d : Nat) :
    Ends (t.descend truth) d (Panic.answer (t.about d (t.value truth d))) := by
  induction d using Nat.strongRecOn with
  | ind d ih =>
    by_cases hd : d < t.size
    · rw [about, if_pos hd]
      cases hn : t.node d with
      | terminal x =>
        rw [value_terminal hn]
        exact .stop (by simp only [descend, read?_of_lt hd, hn, Panic.answer])
      | branch level low high =>
        have hstep : t.descend truth d = .inr (if truth level then high else low) := by
          simp only [descend, read?_of_lt hd, hn]
        obtain ⟨hlow, hhigh⟩ := child_lt hn
        rw [value_branch hn]
        refine .next hstep ?_
        split
        · have hends := ih high hhigh
          rwa [about, if_pos (hhigh.trans hd)] at hends
        · have hends := ih low hlow
          rwa [about, if_pos (hlow.trans hd)] at hends
    · rw [about, if_neg hd]
      exact .stop (by simp only [descend, read?_of_not_lt hd, Panic.answer])

end Table

structure Collecting where
  visited : Std.TreeSet Nat
  stack : List Nat

namespace Collecting

/-- The stack of the roots, from which the last one is taken first. -/
def start (roots : List Nat) : Collecting := ⟨∅, roots.reverse⟩

def step {α : Type} (t : Table α) : Collecting → Except Panic (Std.TreeSet Nat) ⊕ Collecting
  | ⟨visited, []⟩ => .inl (.ok visited)
  | ⟨visited, d :: stack⟩ =>
    if d ∈ visited then .inr ⟨visited, stack⟩
    else
      match t.read? d with
      | some (.terminal _) => .inr ⟨visited.insert d, stack⟩
      | some (.branch _ low high) => .inr ⟨visited.insert d, high :: low :: stack⟩
      | none => .inl (.error .outOfRange)

def unvisited (size : Nat) (c : Collecting) : Finset Nat :=
  (Finset.range size).filter (· ∉ c.visited)

/-- Bounds the steps that are left, of which each node adds at most two to the stack. -/
def weight (size : Nat) (c : Collecting) : Nat := 3 * (c.unvisited size).card + c.stack.length

section Steps

variable {α : Type} {t : Table α} {visited : Std.TreeSet Nat} {d : Nat} {stack : List Nat}

theorem step_visited (hd : d ∈ visited) : step t ⟨visited, d :: stack⟩ = .inr ⟨visited, stack⟩ :=
  if_pos hd

theorem step_outOfRange (hd : d ∉ visited) (hlt : ¬d < t.size) :
    step t ⟨visited, d :: stack⟩ = .inl (.error .outOfRange) := by
  simp only [step, if_neg hd, Table.read?_of_not_lt hlt]

/-- A node that has not been looked at leaves its children on the stack. -/
theorem exists_step_new [Scalar α] (stack : List Nat) (hd : d ∉ visited) (hlt : d < t.size) :
    ∃ children, (∀ child, child ∈ children ↔ t.IsChild d child) ∧ children.length ≤ 2 ∧
      step t ⟨visited, d :: stack⟩ = .inr ⟨visited.insert d, children ++ stack⟩ := by
  cases hn : t.node d with
  | terminal x =>
    refine ⟨[], fun child => by simp [Table.IsChild, hn], Nat.zero_le 2, ?_⟩
    simp only [step, if_neg hd, Table.read?_of_lt hlt, hn, List.nil_append]
  | branch level low high =>
    refine ⟨[high, low], fun child => ?_, le_rfl, ?_⟩
    · simp only [List.mem_cons, List.not_mem_nil, or_false, Table.IsChild, hn, Node.branch.injEq]
      grind
    · simp only [step, if_neg hd, Table.read?_of_lt hlt, hn, List.cons_append, List.nil_append]

theorem weight_visited (size : Nat) :
    weight size ⟨visited, stack⟩ < weight size ⟨visited, d :: stack⟩ := by
  simp [weight, unvisited]

theorem weight_new {size : Nat} (hd : d ∉ visited) (hlt : d < size) {children : List Nat}
    (hchildren : children.length ≤ 2) :
    weight size ⟨visited.insert d, children ++ stack⟩ < weight size ⟨visited, d :: stack⟩ := by
  have hcard : (unvisited size ⟨visited.insert d, children ++ stack⟩).card <
      (unvisited size ⟨visited, d :: stack⟩).card := by
    refine Finset.card_lt_card (Finset.ssubset_iff_of_subset ?_ |>.mpr ⟨d, ?_, ?_⟩)
    · intro r hr
      simp only [unvisited, Finset.mem_filter, Std.TreeSet.mem_insert] at hr ⊢
      exact ⟨hr.1, fun h => hr.2 (.inr h)⟩
    · simp [unvisited, hlt, hd]
    · simp [unvisited]
  simp only [weight, List.length_append, List.length_cons]
  omega

end Steps

/-- The node has been looked at or will be. -/
def Has (c : Collecting) (d : Nat) : Prop := d ∈ c.visited ∨ d ∈ c.stack

theorem has_skip {visited : Std.TreeSet Nat} {d : Nat} {stack : List Nat} (hd : d ∈ visited)
    (r : Nat) : Has ⟨visited, stack⟩ r ↔ Has ⟨visited, d :: stack⟩ r := by
  simp only [Has, List.mem_cons]
  grind

theorem has_visit (visited : Std.TreeSet Nat) (d : Nat) (children stack : List Nat) (r : Nat) :
    Has ⟨visited.insert d, children ++ stack⟩ r ↔ Has ⟨visited, d :: stack⟩ r ∨ r ∈ children := by
  simp only [Has, List.mem_cons, List.mem_append, Std.TreeSet.mem_insert,
    Std.LawfulEqCmp.compare_eq_iff_eq]
  grind

structure Invariant {α : Type} [Scalar α] (t : Table α) (roots : List Nat) (c : Collecting) :
    Prop where
  has_root : ∀ root ∈ roots, c.Has root
  reached {d : Nat} : c.Has d → ∃ root ∈ roots, t.Reaches root d
  has_child {d child : Nat} : d ∈ c.visited → t.IsChild d child → c.Has child
  lt_size : ∀ d ∈ c.visited, d < t.size

section Run

variable {α : Type} [Scalar α] {t : Table α} {roots : List Nat} {visited : Std.TreeSet Nat}
  {d : Nat} {stack : List Nat}

theorem start_invariant (t : Table α) (roots : List Nat) : Invariant t roots (start roots) where
  has_root root hroot := .inr (List.mem_reverse.mpr hroot)
  reached {d} h := by
    rcases h with h | h
    · simp [start] at h
    · exact ⟨d, List.mem_reverse.mp h, .refl d⟩
  has_child h := by simp [start] at h
  lt_size d h := by simp [start] at h

theorem Invariant.skip (h : Invariant t roots ⟨visited, d :: stack⟩) (hd : d ∈ visited) :
    Invariant t roots ⟨visited, stack⟩ where
  has_root root hroot := (has_skip hd root).mpr (h.has_root root hroot)
  reached {r} hr := h.reached ((has_skip hd r).mp hr)
  has_child {_ child} hr hchild := (has_skip hd child).mpr (h.has_child hr hchild)
  lt_size := h.lt_size

theorem Invariant.visit (h : Invariant t roots ⟨visited, d :: stack⟩) (hlt : d < t.size)
    {children : List Nat} (hchildren : ∀ child, child ∈ children ↔ t.IsChild d child) :
    Invariant t roots ⟨visited.insert d, children ++ stack⟩ where
  has_root root hroot := (has_visit ..).mpr (.inl (h.has_root root hroot))
  reached {r} hr := by
    rcases (has_visit ..).mp hr with hr | hr
    · exact h.reached hr
    · obtain ⟨root, hroot, hreaches⟩ := h.reached (.inr List.mem_cons_self)
      exact ⟨root, hroot, hreaches.trans_child ((hchildren r).mp hr)⟩
  has_child {r child} hr hchild := by
    rw [Std.TreeSet.mem_insert, Std.LawfulEqCmp.compare_eq_iff_eq] at hr
    rcases hr with rfl | hr
    · exact (has_visit ..).mpr (.inr ((hchildren child).mpr hchild))
    · exact (has_visit ..).mpr (.inl (h.has_child hr hchild))
  lt_size r hr := by
    rw [Std.TreeSet.mem_insert, Std.LawfulEqCmp.compare_eq_iff_eq] at hr
    rcases hr with rfl | hr
    · exact hlt
    · exact h.lt_size r hr

/-- A collection from roots in range comes to the nodes that they reach. It panics if a root is out
of range. -/
def Collects (t : Table α) (roots : List Nat) : Except Panic (Std.TreeSet Nat) → Prop
  | .ok visited => (∀ root ∈ roots, root < t.size) ∧ (∀ d ∈ visited, d < t.size) ∧
      ∀ d, d ∈ visited ↔ d ∈ t.reachable roots
  | .error panic => panic = .outOfRange ∧ ∃ root ∈ roots, ¬root < t.size

theorem Invariant.collects (h : Invariant t roots ⟨visited, []⟩) :
    Collects t roots (.ok visited) := by
  have hvisited {d : Nat} (hd : Has ⟨visited, []⟩ d) : d ∈ visited :=
    hd.resolve_right List.not_mem_nil
  refine ⟨fun root hroot => h.lt_size root (hvisited (h.has_root root hroot)), h.lt_size,
    fun d => ?_⟩
  rw [Table.mem_reachable]
  constructor
  · exact fun hd => h.reached (.inl hd)
  · rintro ⟨root, hroot, hreaches⟩
    have hmem := hvisited (h.has_root root hroot)
    clear hroot
    induction hreaches with
    | refl d => exact hmem
    | low hn _ ih => exact ih (hvisited (h.has_child hmem ⟨_, _, _, hn, .inl rfl⟩))
    | high hn _ ih => exact ih (hvisited (h.has_child hmem ⟨_, _, _, hn, .inr rfl⟩))

theorem Invariant.exists_ends {c : Collecting} (h : Invariant t roots c) :
    ∃ r, Ends (step t) c r ∧ Collects t roots r := by
  induction hweight : c.weight t.size using Nat.strongRecOn generalizing c with
  | ind weight ih =>
    obtain ⟨visited, stack⟩ := c
    cases stack with
    | nil => exact ⟨.ok visited, .stop rfl, h.collects⟩
    | cons d stack =>
      by_cases hd : d ∈ visited
      · obtain ⟨r, hends, hr⟩ := ih _ (hweight ▸ weight_visited t.size) (h.skip hd) rfl
        exact ⟨r, .next (step_visited hd) hends, hr⟩
      · by_cases hlt : d < t.size
        · obtain ⟨children, hchildren, hlength, hstep⟩ := exists_step_new stack hd hlt
          obtain ⟨r, hends, hr⟩ :=
            ih _ (hweight ▸ weight_new hd hlt hlength) (h.visit hlt hchildren) rfl
          exact ⟨r, .next hstep hends, hr⟩
        · obtain ⟨root, hroot, hreaches⟩ := h.reached (.inr List.mem_cons_self)
          refine ⟨_, .stop (step_outOfRange hd hlt), rfl, root, hroot, fun hrootLt => ?_⟩
          exact hlt (hreaches.le.trans_lt hrootLt)

end Run

end Collecting

end DecisionDiagrams
