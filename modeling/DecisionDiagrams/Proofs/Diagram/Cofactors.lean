import DecisionDiagrams.Proofs.Loop.Nodes

/-! What is left of a diagram when its first levels are held fixed. That is a node of the diagram,
every node is left of it in this way, and the nodes test the levels on which the values depend. -/
namespace DecisionDiagrams

/-- The truth values that are `first` on the levels below `n`, and `rest` from there on. -/
def fixBelow (n : Nat) (first rest : Nat → Bool) : Nat → Bool :=
  fun level => if level < n then first level else rest level

theorem fixBelow_of_lt {n level : Nat} (h : level < n) (first rest : Nat → Bool) :
    fixBelow n first rest level = first level := if_pos h

theorem fixBelow_of_le {n level : Nat} (h : n ≤ level) (first rest : Nat → Bool) :
    fixBelow n first rest level = rest level := if_neg h.not_gt

theorem fixBelow_update {n level : Nat} (h : level < n) (first rest : Nat → Bool) (side : Bool) :
    fixBelow n (Function.update first level side) rest =
      Function.update (fixBelow n first rest) level side := by
  funext l
  by_cases hl : l = level
  · subst hl
    rw [fixBelow_of_lt h, Function.update_self, Function.update_self]
  · simp only [fixBelow, Function.update_of_ne hl]

namespace Table

variable {α : Type} [Scalar α] {t : Table α} {levels : Nat}

/-- The level that the root of a diagram tests. Terminals are below all levels. -/
def depth (levels : Nat) (t : Table α) (d : Nat) : Nat := (t.level? d).getD levels

theorem depth_branch {d level low high : Nat} (hn : t.node d = .branch level low high) :
    t.depth levels d = level := by rw [depth, level?_branch hn, Option.getD_some]

theorem testsFrom_depth (t : Table α) (levels d : Nat) : t.TestsFrom (t.depth levels d) d := by
  intro level hlevel
  rw [depth, Option.mem_def.mp hlevel, Option.getD_some]

theorem TestsFrom.le_depth {n d : Nat} (h : t.TestsFrom n d) (hn : n ≤ levels) :
    n ≤ t.depth levels d := by
  unfold depth
  cases hlevel : t.level? d with
  | none => exact hn
  | some level => exact h level hlevel

/-- A branch is met before its level is left behind, if the values depend on that level. -/
theorem exists_branch_of_value_ne {truth truth' : Nat → Bool} {d level : Nat}
    (hagree : ∀ l, l ≠ level → truth l = truth' l) (h : t.value truth d ≠ t.value truth' d) :
    ∃ r low high, t.Reaches d r ∧ t.node r = .branch level low high := by
  induction d using Nat.strongRecOn with
  | ind d ih =>
    cases hn : t.node d with
    | terminal x => rw [value_terminal hn, value_terminal hn] at h; exact absurd rfl h
    | branch level' low high =>
      by_cases hlevel : level' = level
      · subst hlevel
        exact ⟨d, low, high, .refl d, hn⟩
      · obtain ⟨hlow, hhigh⟩ := child_lt hn
        rw [value_branch hn, value_branch hn, hagree level' hlevel] at h
        split at h
        · obtain ⟨r, l, h', hreaches, hr⟩ := ih high hhigh h
          exact ⟨r, l, h', .high hn hreaches, hr⟩
        · obtain ⟨r, l, h', hreaches, hr⟩ := ih low hlow h
          exact ⟨r, l, h', .low hn hreaches, hr⟩

namespace WellFormed

variable {d r : Nat}

theorem depth_le (ht : t.WellFormed levels) (hd : d < t.size) : t.depth levels d ≤ levels := by
  cases hn : t.node d with
  | terminal x => rw [depth, level?_terminal hn, Option.getD_none]
  | branch level low high => exact depth_branch hn ▸ (ht.branch_fits hd hn).2.1.le

/-- The nodes of a diagram test no level below those that its root may test. -/
theorem testsFrom_of_reaches (ht : t.WellFormed levels) (hd : d < t.size) (h : t.Reaches d r)
    {n : Nat} (hfrom : t.TestsFrom n d) : t.TestsFrom n r := by
  induction h with
  | refl d => exact hfrom
  | low hn _ ih =>
    obtain ⟨-, -, hlow, -⟩ := ht.branch_fits hd hn
    have hle := (testsFrom_branch hn).mp hfrom
    exact ih ((child_lt hn).1.trans hd) (hlow.mono (hle.trans (Nat.le_succ _)))
  | high hn _ ih =>
    obtain ⟨-, -, -, hhigh⟩ := ht.branch_fits hd hn
    have hle := (testsFrom_branch hn).mp hfrom
    exact ih ((child_lt hn).2.trans hd) (hhigh.mono (hle.trans (Nat.le_succ _)))

/-- The half of a branch is the branch with its level held fixed. -/
theorem value_update (ht : t.WellFormed levels) (hd : d < t.size) {level low high : Nat}
    (hn : t.node d = .branch level low high) (side : Bool) (truth : Nat → Bool) :
    t.value (Function.update truth level side) d = t.value truth (bif side then high else low) := by
  rw [← ht.value_cofactor_eq_update hd ((testsFrom_branch hn).mpr le_rfl), cofactor_branch hn]

/-- When the levels below `n` are held fixed, the path that they choose leads to the node that is
left, even if it leaves out levels. -/
theorem exists_reaches_of_fixed (ht : t.WellFormed levels) (hd : d < t.size) (n : Nat)
    (first : Nat → Bool) :
    ∃ r, t.Reaches d r ∧ ∀ rest, t.value rest r = t.value (fixBelow n first rest) d := by
  induction d using Nat.strongRecOn with
  | ind d ih =>
    have hleft (hfrom : t.TestsFrom n d) (rest : Nat → Bool) :
        t.value rest d = t.value (fixBelow n first rest) d :=
      ht.value_congr hd hfrom fun l hl _ => (fixBelow_of_le hl first rest).symm
    cases hn : t.node d with
    | terminal x => exact ⟨d, .refl d, hleft (testsFrom_terminal hn n)⟩
    | branch level low high =>
      by_cases hlevel : level < n
      · obtain ⟨hlow, hhigh⟩ := child_lt hn
        have hvalue (rest : Nat → Bool) := value_branch hn (fixBelow n first rest)
        simp only [fixBelow_of_lt hlevel] at hvalue
        cases hside : first level with
        | true =>
          obtain ⟨r, hreaches, hr⟩ := ih high hhigh (hhigh.trans hd)
          refine ⟨r, .high hn hreaches, fun rest => ?_⟩
          rw [hr, hvalue, if_pos hside]
        | false =>
          obtain ⟨r, hreaches, hr⟩ := ih low hlow (hlow.trans hd)
          refine ⟨r, .low hn hreaches, fun rest => ?_⟩
          rw [hr, hvalue, if_neg (by simp [hside])]
      · exact ⟨d, .refl d, hleft ((testsFrom_branch hn).mpr (Nat.le_of_not_lt hlevel))⟩

/-- What is left of a half is left of the whole when the level of the root is held fixed too. -/
theorem exists_fixed_of_half (ht : t.WellFormed levels) (hd : d < t.size) {level low high n : Nat}
    (hn : t.node d = .branch level low high) (hlevel : level < n) (side : Bool)
    (h : ∃ first, ∀ rest,
      t.value rest r = t.value (fixBelow n first rest) (bif side then high else low)) :
    ∃ first, ∀ rest, t.value rest r = t.value (fixBelow n first rest) d := by
  obtain ⟨first, hfirst⟩ := h
  refine ⟨Function.update first level side, fun rest => ?_⟩
  rw [fixBelow_update hlevel, ht.value_update hd hn]
  exact hfirst rest

/-- Every node is what is left of the diagram when the levels above it are held fixed. -/
theorem exists_fixed_of_reaches (ht : t.WellFormed levels) (hd : d < t.size)
    (h : t.Reaches d r) : ∃ first, ∀ rest,
      t.value rest r = t.value (fixBelow (t.depth levels r) first rest) d := by
  induction h with
  | refl d =>
    refine ⟨fun _ => false, fun rest => ht.value_congr hd (t.testsFrom_depth levels d) ?_⟩
    intro l hl _
    rw [fixBelow_of_le hl]
  | low hn h ih =>
    obtain ⟨-, hlevel, hlow, -⟩ := ht.branch_fits hd hn
    have hlt := (child_lt hn).1.trans hd
    have habove := (ht.testsFrom_of_reaches hlt h hlow).le_depth hlevel
    exact ht.exists_fixed_of_half hd hn habove false (ih hlt)
  | high hn h ih =>
    obtain ⟨-, hlevel, -, hhigh⟩ := ht.branch_fits hd hn
    have hlt := (child_lt hn).2.trans hd
    have habove := (ht.testsFrom_of_reaches hlt h hhigh).le_depth hlevel
    exact ht.exists_fixed_of_half hd hn habove true (ih hlt)

/-- The values of a diagram depend on every level that one of its nodes tests. -/
theorem exists_value_ne_of_branch [LawfulScalar α] (ht : t.WellFormed levels) (hd : d < t.size)
    (h : t.Reaches d r) {level low high : Nat} (hn : t.node r = .branch level low high) :
    ∃ truth truth' : Nat → Bool, (∀ l, l ≠ level → truth l = truth' l) ∧
      t.value truth d ≠ t.value truth' d := by
  have hr := h.le.trans_lt hd
  obtain ⟨hlow, hhigh⟩ := child_lt hn
  -- The halves of a branch are two nodes, and some point tells them apart.
  have hhalves : ∃ rest, t.value rest low ≠ t.value rest high := by
    by_contra hnone
    push Not at hnone
    exact (ht.branch_fits hr hn).1 (ht.eq_of_value_eq (hlow.trans hr) (hhigh.trans hr) hnone)
  obtain ⟨rest, hne⟩ := hhalves
  obtain ⟨first, hfirst⟩ := ht.exists_fixed_of_reaches hd h
  let side (b : Bool) := fixBelow (t.depth levels r) first (Function.update rest level b)
  refine ⟨side false, side true, fun l hl => ?_, fun heq => hne ?_⟩
  · simp only [side, fixBelow, Function.update_of_ne hl]
  · rw [← hfirst, ← hfirst, ht.value_update hr hn, ht.value_update hr hn] at heq
    exact heq

end WellFormed

end Table

end DecisionDiagrams
