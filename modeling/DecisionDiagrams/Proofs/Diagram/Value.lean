import DecisionDiagrams.Diagram.Value
import DecisionDiagrams.Proofs.Diagram.Table
import Mathlib.Logic.Function.Basic

/-! What diagrams mean. A diagram keeps its value while its table grows, and in a well-formed
table two diagrams with the same values are the same diagram. -/
namespace DecisionDiagrams

open Scalar

namespace Assignment

def ofTruth (n : Nat) (truth : Nat → Bool) : Assignment :=
  Array.ofFn fun level : Fin n => truth level

@[simp] theorem size_ofTruth (n : Nat) (truth : Nat → Bool) : (ofTruth n truth).size = n :=
  Array.size_ofFn

theorem getElem?_ofTruth (n : Nat) (truth : Nat → Bool) (level : Nat) :
    (ofTruth n truth)[level]? = if level < n then some (truth level) else none := by
  simp [ofTruth, Array.getElem?_ofFn]

theorem truth_ofTruth {n level : Nat} (h : level < n) (truth : Nat → Bool) :
    (ofTruth n truth).truth level = truth level := by
  rw [Assignment.truth, Array.getD_eq_getD_getElem?, getElem?_ofTruth, if_pos h, Option.getD_some]

end Assignment

namespace Table

variable {α : Type} [Scalar α]

/-- The half of a diagram in which a level has the truth value `side`, if no smaller level is
tested. -/
def cofactor (t : Table α) (level : Nat) (side : Bool) (d : Nat) : Nat :=
  match t.node d with
  | .terminal _ => d
  | .branch level' low high => if level' = level then bif side then high else low else d

theorem cofactor_branch {t : Table α} {d level low high : Nat}
    (h : t.node d = .branch level low high) (side : Bool) :
    t.cofactor level side d = bif side then high else low := by
  simp only [cofactor, h, if_pos]

theorem cofactor_of_ne {t : Table α} {d level : Nat} (h : t.level? d ≠ some level) (side : Bool) :
    t.cofactor level side d = d := by
  unfold cofactor
  split
  next => rfl
  next hn => exact if_neg fun hlevel => h ((level?_branch hn).trans (congrArg some hlevel))

theorem cofactor_terminal {t : Table α} {d : Nat} {x : α} (h : t.node d = .terminal x)
    (level : Nat) (side : Bool) : t.cofactor level side d = d := by
  simp only [cofactor, h]

theorem exists_branch_of_level? {t : Table α} {d level : Nat} (h : t.level? d = some level) :
    ∃ low high, t.node d = .branch level low high := by
  unfold level? at h
  split at h
  next => cases h
  next low high hn => cases h; exact ⟨low, high, hn⟩

theorem exists_terminal_of_level? {t : Table α} {d : Nat} (h : t.level? d = none) :
    ∃ x, t.node d = .terminal x := by
  unfold level? at h
  split at h
  next x hn => exact ⟨x, hn⟩
  next => cases h

/-- Two roots are terminals, or one of them tests the smallest level of both. -/
theorem terminals_or_top (t : Table α) (f g : Nat) :
    ((∃ x, t.node f = .terminal x) ∧ ∃ y, t.node g = .terminal y) ∨
      ∃ level, (t.level? f = some level ∨ t.level? g = some level) ∧
        t.TestsFrom level f ∧ t.TestsFrom level g := by
  cases hf : t.level? f with
  | none =>
    cases hg : t.level? g with
    | none => exact .inl ⟨exists_terminal_of_level? hf, exists_terminal_of_level? hg⟩
    | some level => exact .inr ⟨level, .inr rfl, by simp [TestsFrom, hf], by simp [TestsFrom, hg]⟩
  | some level =>
    cases hg : t.level? g with
    | none => exact .inr ⟨level, .inl rfl, by simp [TestsFrom, hf], by simp [TestsFrom, hg]⟩
    | some level' =>
      rcases Nat.le_total level level' with h | h
      · exact .inr ⟨level, .inl rfl, by simp [TestsFrom, hf], by simpa [TestsFrom, hg] using h⟩
      · exact .inr ⟨level', .inr rfl, by simpa [TestsFrom, hf] using h, by simp [TestsFrom, hg]⟩

theorem cofactor_le (t : Table α) (level : Nat) (side : Bool) (d : Nat) :
    t.cofactor level side d ≤ d := by
  by_cases h : t.level? d = some level
  · obtain ⟨low, high, hn⟩ := exists_branch_of_level? h
    rw [cofactor_branch hn]
    cases side
    · exact (child_lt hn).1.le
    · exact (child_lt hn).2.le
  · rw [cofactor_of_ne h]

theorem cofactor_lt {t : Table α} {d level : Nat} (h : t.level? d = some level) (side : Bool) :
    t.cofactor level side d < d := by
  obtain ⟨low, high, hn⟩ := exists_branch_of_level? h
  rw [cofactor_branch hn]
  cases side
  · exact (child_lt hn).1
  · exact (child_lt hn).2

/-- A diagram is either half of itself at every level. -/
theorem value_cofactor (t : Table α) (truth : Nat → Bool) (level d : Nat) :
    t.value truth (t.cofactor level (truth level) d) = t.value truth d := by
  by_cases h : t.level? d = some level
  · obtain ⟨low, high, hn⟩ := exists_branch_of_level? h
    rw [cofactor_branch hn, value_branch hn]
    cases truth level <;> rfl
  · rw [cofactor_of_ne h]

theorem Grows.value {t t' : Table α} (h : t.Grows t') (truth : Nat → Bool) {d : Nat}
    (hd : d < t.size) : t'.value truth d = t.value truth d := by
  induction d using Nat.strongRecOn with
  | ind d ih =>
    cases hn : t.node d with
    | terminal x => rw [value_terminal hn, value_terminal ((h.node hd).trans hn)]
    | branch level low high =>
      obtain ⟨hlow, hhigh⟩ := child_lt hn
      rw [value_branch hn, value_branch ((h.node hd).trans hn), ih low hlow (hlow.trans hd),
        ih high hhigh (hhigh.trans hd)]

namespace WellFormed

variable {levels : Nat} {t : Table α}

theorem canonical_value (ht : t.WellFormed levels) (truth : Nat → Bool) {d : Nat}
    (hd : d < t.size) : canonical (t.value truth d) = t.value truth d := by
  induction d using Nat.strongRecOn with
  | ind d ih =>
    cases hn : t.node d with
    | terminal x => rw [value_terminal hn, ht.canonical_terminal hd hn]
    | branch level low high =>
      obtain ⟨hlow, hhigh⟩ := child_lt hn
      rw [value_branch hn]
      split
      · exact ih high hhigh (hhigh.trans hd)
      · exact ih low hlow (hlow.trans hd)

/-- A value depends only on the levels that the root and the nodes below it can test. -/
theorem value_congr (ht : t.WellFormed levels) {truth truth' : Nat → Bool} {n d : Nat}
    (hd : d < t.size) (hfrom : t.TestsFrom n d)
    (h : ∀ level, n ≤ level → level < levels → truth level = truth' level) :
    t.value truth d = t.value truth' d := by
  induction d using Nat.strongRecOn generalizing n with
  | ind d ih =>
    cases hn : t.node d with
    | terminal x => rw [value_terminal hn, value_terminal hn]
    | branch level low high =>
      obtain ⟨hlow, hhigh⟩ := child_lt hn
      obtain ⟨-, hlevel, htestsLow, htestsHigh⟩ := ht.branch_fits hd hn
      have hle := (testsFrom_branch hn).mp hfrom
      have hrest (l : Nat) (hl : level + 1 ≤ l) := h l (hle.trans (Nat.le_of_succ_le hl))
      rw [value_branch hn, value_branch hn, h level hle hlevel,
        ih low hlow (hlow.trans hd) htestsLow hrest,
        ih high hhigh (hhigh.trans hd) htestsHigh hrest]

/-- Assignments decide as much as truth values for all levels do. -/
theorem value_ofTruth (ht : t.WellFormed levels) (truth : Nat → Bool) {d : Nat} (hd : d < t.size) :
    t.value (Assignment.ofTruth levels truth).truth d = t.value truth d := by
  refine ht.value_congr hd (fun _ _ => Nat.zero_le _) fun level _ hlevel => ?_
  rw [Assignment.truth_ofTruth hlevel]

theorem exists_assignment (ht : t.WellFormed levels) (truth : Nat → Bool) :
    ∃ a : Assignment, ∀ d, d < t.size → t.value truth d = t.value a.truth d :=
  ⟨.ofTruth levels truth, fun _ hd => (ht.value_ofTruth truth hd).symm⟩

theorem testsFrom_cofactor (ht : t.WellFormed levels) {level d : Nat} (hd : d < t.size)
    (hfrom : t.TestsFrom level d) (side : Bool) :
    t.TestsFrom (level + 1) (t.cofactor level side d) := by
  by_cases h : t.level? d = some level
  · obtain ⟨low, high, hn⟩ := exists_branch_of_level? h
    obtain ⟨-, -, hlow, hhigh⟩ := ht.branch_fits hd hn
    rw [cofactor_branch hn]
    cases side
    · exact hlow
    · exact hhigh
  · rw [cofactor_of_ne h]
    intro level' hlevel'
    have hne : level ≠ level' := fun heq => h (heq ▸ hlevel')
    exact (hfrom level' hlevel').lt_of_ne hne

/-- The values of a half are those of the whole diagram with the level held fixed. -/
theorem value_cofactor_eq_update (ht : t.WellFormed levels) {level d : Nat} (hd : d < t.size)
    (hfrom : t.TestsFrom level d) (side : Bool) (truth : Nat → Bool) :
    t.value truth (t.cofactor level side d) = t.value (Function.update truth level side) d := by
  have hhalf := t.value_cofactor (Function.update truth level side) level d
  rw [Function.update_self] at hhalf
  rw [← hhalf]
  refine ht.value_congr ((t.cofactor_le level side d).trans_lt hd)
    (ht.testsFrom_cofactor hd hfrom side) fun l hl _ => ?_
  rw [Function.update_of_ne (Nat.lt_of_succ_le hl).ne']

theorem value_cofactor_eq (ht : t.WellFormed levels) {level f g : Nat} (hf : f < t.size)
    (hg : g < t.size) (hfromF : t.TestsFrom level f) (hfromG : t.TestsFrom level g)
    (h : ∀ truth, t.value truth f = t.value truth g) (side : Bool) (truth : Nat → Bool) :
    t.value truth (t.cofactor level side f) = t.value truth (t.cofactor level side g) := by
  rw [ht.value_cofactor_eq_update hf hfromF, ht.value_cofactor_eq_update hg hfromG, h]

variable [LawfulScalar α]

theorem eq_of_cofactor_eq (ht : t.WellFormed levels) {level f g : Nat} (hf : f < t.size)
    (hg : g < t.size) (hlevel : t.level? f = some level)
    (h : ∀ side, t.cofactor level side f = t.cofactor level side g) : f = g := by
  obtain ⟨low, high, hn⟩ := exists_branch_of_level? hlevel
  have hlow : low = t.cofactor level false g := (cofactor_branch hn false).symm.trans (h false)
  have hhigh : high = t.cofactor level true g := (cofactor_branch hn true).symm.trans (h true)
  by_cases hlevelG : t.level? g = some level
  · obtain ⟨low', high', hn'⟩ := exists_branch_of_level? hlevelG
    rw [cofactor_branch hn'] at hlow hhigh
    exact ht.node_injective hf hg (by rw [hn, hn', hlow, hhigh]; rfl)
  · rw [cofactor_of_ne hlevelG] at hlow hhigh
    exact absurd (hlow.trans hhigh.symm) (ht.branch_fits hf hn).1

/-- Diagrams with the same values everywhere are one diagram. -/
theorem eq_of_value_eq (ht : t.WellFormed levels) {f g : Nat} (hf : f < t.size)
    (hg : g < t.size) (h : ∀ truth, t.value truth f = t.value truth g) : f = g := by
  -- At the smallest level that either diagram tests, the halves of both have the same values too.
  induction hs : f + g using Nat.strongRecOn generalizing f g with
  | ind s ih =>
    rcases t.terminals_or_top f g with ⟨⟨x, hx⟩, ⟨y, hy⟩⟩ | ⟨level, htop, hfromF, hfromG⟩
    · have hxy := h fun _ => false
      rw [value_terminal hx, value_terminal hy] at hxy
      exact ht.node_injective hf hg (by rw [hx, hy, hxy])
    · have hhalves (side : Bool) : t.cofactor level side f = t.cofactor level side g := by
        have hleF := t.cofactor_le level side f
        have hleG := t.cofactor_le level side g
        have hlt : t.cofactor level side f + t.cofactor level side g < s := by
          rcases htop with htop | htop
          · have := cofactor_lt htop side; omega
          · have := cofactor_lt htop side; omega
        exact ih _ hlt (hleF.trans_lt hf) (hleG.trans_lt hg)
          (ht.value_cofactor_eq hf hg hfromF hfromG h side) rfl
      rcases htop with htop | htop
      · exact ht.eq_of_cofactor_eq hf hg htop hhalves
      · exact (ht.eq_of_cofactor_eq hg hf htop fun side => (hhalves side).symm).symm

theorem eq_of_assignments (ht : t.WellFormed levels) {f g : Nat} (hf : f < t.size)
    (hg : g < t.size) (h : ∀ a : Assignment, t.value a.truth f = t.value a.truth g) : f = g := by
  apply ht.eq_of_value_eq hf hg
  intro truth
  obtain ⟨a, ha⟩ := ht.exists_assignment truth
  rw [ha f hf, ha g hg, h]

theorem eq_iff_same (ht : t.WellFormed levels) {f g : Nat} (hf : f < t.size) (hg : g < t.size) :
    f = g ↔ ∀ a : Assignment, Same (t.value a.truth f) (t.value a.truth g) := by
  constructor
  · rintro rfl a
    exact .refl _
  · intro h
    refine ht.eq_of_assignments hf hg fun a => ?_
    rw [← ht.canonical_value a.truth hf, ← ht.canonical_value a.truth hg]
    exact canonical_eq_iff.mpr (h a)

end WellFormed

end Table

end DecisionDiagrams
