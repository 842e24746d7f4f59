import DecisionDiagrams.Diagram.Call
import DecisionDiagrams.Proofs.Diagram.Value
import Mathlib.Data.List.Basic

/-! The plain expansion of a call, without memory and without shortcuts, and the calls that are
settled: those whose expansion is in the table already. -/
namespace DecisionDiagrams

open Scalar

namespace Call

def operands : Call → List Nat
  | unary _ f => [f]
  | binary _ f g => [f, g]

def map (φ : Nat → Nat) : Call → Call
  | unary op f => unary op (φ f)
  | binary op f g => binary op (φ f) (φ g)

@[simp] theorem operands_map (φ : Nat → Nat) (c : Call) :
    (c.map φ).operands = c.operands.map φ := by cases c <;> rfl

theorem inRange_iff {size : Nat} {c : Call} : c.InRange size ↔ ∀ d ∈ c.operands, d < size := by
  cases c <;> simp [InRange, operands]

theorem InRange.mono {c : Call} {size size' : Nat} (h : c.InRange size) (hle : size ≤ size') :
    c.InRange size' := inRange_iff.mpr fun d hd => (inRange_iff.mp h d hd).trans_le hle

theorem inRange_key {c : Call} {size : Nat} : c.key.InRange size ↔ c.InRange size := by
  cases c with
  | unary op f => rfl
  | binary op f g =>
    by_cases h : op.isCommutative ∧ g < f
    · rw [key, if_pos h]
      exact and_comm
    · rw [key, if_neg h]

variable {α : Type} [Scalar α]

/-- The value of a call from the values of its operands. -/
def compute (value : Nat → α) : Call → α
  | unary op f => op.compute (value f)
  | binary op f g => op.compute (value f) (value g)

def level? (t : Table α) (c : Call) : Option Nat := (c.operands.filterMap t.level?).min?

/-- The half of a call in which a level has the truth value `side`. -/
def cofactor (t : Table α) (level : Nat) (side : Bool) (c : Call) : Call :=
  c.map (t.cofactor level side)

/-- No operand tests a level below `n`. -/
def TestsFrom (t : Table α) (n : Nat) (c : Call) : Prop := ∀ d ∈ c.operands, t.TestsFrom n d

theorem compute_map (value : Nat → α) (φ : Nat → Nat) (c : Call) :
    (c.map φ).compute value = c.compute (fun d => value (φ d)) := by cases c <;> rfl

theorem compute_congr {value value' : Nat → α} {c : Call}
    (h : ∀ d ∈ c.operands, value d = value' d) : c.compute value = c.compute value' := by
  cases c with
  | unary op f => rw [compute, compute, h f (by simp [operands])]
  | binary op f g =>
    rw [compute, compute, h f (by simp [operands]), h g (by simp [operands])]

theorem level?_eq_none {t : Table α} {c : Call} (h : c.level? t = none) :
    ∀ d ∈ c.operands, t.level? d = none := by
  rw [level?, List.min?_eq_none_iff, List.filterMap_eq_nil_iff] at h
  exact h

theorem testsFrom_of_level? {t : Table α} {c : Call} {level : Nat} (h : c.level? t = some level) :
    c.TestsFrom t level := by
  intro d hd l hl
  obtain ⟨-, hmin⟩ := List.min?_eq_some_iff.mp h
  exact hmin l (List.mem_filterMap.mpr ⟨d, hd, hl⟩)

theorem exists_operand_of_level? {t : Table α} {c : Call} {level : Nat}
    (h : c.level? t = some level) : ∃ d ∈ c.operands, t.level? d = some level := by
  obtain ⟨hmem, -⟩ := List.min?_eq_some_iff.mp h
  exact List.mem_filterMap.mp hmem

theorem le_of_testsFrom {t : Table α} {c : Call} {level n : Nat} (h : c.level? t = some level)
    (hfrom : c.TestsFrom t n) : n ≤ level := by
  obtain ⟨d, hd, hlevel⟩ := exists_operand_of_level? h
  exact hfrom d hd level hlevel

/-- Splitting a call takes its halves at the smallest level that an operand tests. -/
theorem split_eq (t : Table α) (c : Call) :
    c.split t =
      match c.level? t with
      | none => .value (c.compute (t.value fun _ => false))
      | some level => .cofactors level (c.cofactor t level false) (c.cofactor t level true) := by
  cases c with
  | unary op f =>
    cases hf : t.node f with
    | terminal x =>
      simp [split, hf, level?, operands, Table.level?_terminal hf, compute,
        Table.value_terminal hf]
    | branch level low high =>
      simp [split, hf, level?, operands, Table.level?_branch hf, cofactor, map,
        Table.cofactor_branch hf]
  | binary op f g =>
    cases hf : t.node f with
    | terminal x =>
      cases hg : t.node g with
      | terminal y =>
        simp [split, hf, hg, level?, operands, Table.level?_terminal, compute,
          Table.value_terminal hf, Table.value_terminal hg]
      | branch level low high =>
        simp [split, hf, hg, level?, operands, Table.level?_terminal hf, Table.level?_branch hg,
          cofactor, map, Table.cofactor]
    | branch level low high =>
      cases hg : t.node g with
      | terminal y =>
        simp [split, hf, hg, level?, operands, Table.level?_branch hf, Table.level?_terminal hg,
          cofactor, map, Table.cofactor]
      | branch level' low' high' =>
        have hmin : (binary op f g).level? t = some (min level level') := by
          simp [level?, operands, Table.level?_branch hf, Table.level?_branch hg]
        simp only [split, hf, hg, hmin, cofactor, map, Table.cofactor]
        rcases Nat.lt_trichotomy level level' with h | rfl | h
        · rw [if_pos h, Nat.min_eq_left h.le]
          simp [h.ne']
        · simp
        · rw [if_neg h.le.not_gt, if_pos h, Nat.min_eq_right h.le]
          simp [h.ne']

theorem rank_cofactor_lt {t : Table α} {c : Call} {level : Nat} (h : c.level? t = some level)
    (side : Bool) : (c.cofactor t level side).rank < c.rank := by
  have hsplit := c.split_eq t
  rw [h] at hsplit
  cases side
  · exact (rank_lt_of_split hsplit).1
  · exact (rank_lt_of_split hsplit).2

theorem InRange.cofactor {t : Table α} {c : Call} {size : Nat} (h : c.InRange size)
    (level : Nat) (side : Bool) : (c.cofactor t level side).InRange size := by
  rw [inRange_iff] at h ⊢
  simp only [Call.cofactor, operands_map, List.forall_mem_map]
  exact fun d hd => (t.cofactor_le level side d).trans_lt (h d hd)

theorem compute_cofactor (t : Table α) (truth : Nat → Bool) (level : Nat) (c : Call) :
    (c.cofactor t level (truth level)).compute (t.value truth) = c.compute (t.value truth) := by
  rw [cofactor, compute_map]
  exact compute_congr fun d _ => t.value_cofactor truth level d

/-- A call on constants has one value everywhere. -/
theorem compute_of_level?_eq_none {t : Table α} {c : Call} (h : c.level? t = none)
    (truth truth' : Nat → Bool) : c.compute (t.value truth) = c.compute (t.value truth') := by
  refine compute_congr fun d hd => ?_
  obtain ⟨x, hx⟩ := Table.exists_terminal_of_level? (level?_eq_none h d hd)
  rw [Table.value_terminal hx, Table.value_terminal hx]

theorem testsFrom_cofactor {levels : Nat} {t : Table α} (ht : t.WellFormed levels) {c : Call}
    (hc : c.InRange t.size) {level : Nat} (hlevel : c.level? t = some level) (side : Bool) :
    (c.cofactor t level side).TestsFrom t (level + 1) := by
  simp only [TestsFrom, cofactor, operands_map, List.forall_mem_map]
  exact fun d hd => ht.testsFrom_cofactor (inRange_iff.mp hc d hd)
    (testsFrom_of_level? hlevel d hd) side

theorem level?_lt {levels : Nat} {t : Table α} (ht : t.WellFormed levels) {c : Call}
    (hc : c.InRange t.size) {level : Nat} (hlevel : c.level? t = some level) : level < levels := by
  obtain ⟨d, hd, hlevel⟩ := exists_operand_of_level? hlevel
  obtain ⟨low, high, hn⟩ := Table.exists_branch_of_level? hlevel
  exact (ht.branch_fits (inRange_iff.mp hc d hd) hn).2.1

section Grows

variable {t t' : Table α} {c : Call}

theorem level?_grows (h : t.Grows t') (hc : c.InRange t.size) : c.level? t' = c.level? t := by
  rw [level?, level?, List.filterMap_congr fun d hd => h.level? (inRange_iff.mp hc d hd)]

theorem cofactor_grows (h : t.Grows t') (hc : c.InRange t.size) (level : Nat) (side : Bool) :
    c.cofactor t' level side = c.cofactor t level side := by
  have hd (d : Nat) (hd : d < t.size) : t'.cofactor level side d = t.cofactor level side d := by
    rw [Table.cofactor, Table.cofactor, h.node hd]
  cases c with
  | unary op f => simp only [cofactor, map, hd f hc]
  | binary op f g => simp only [cofactor, map, hd f hc.1, hd g hc.2]

theorem compute_grows (h : t.Grows t') (hc : c.InRange t.size) (truth : Nat → Bool) :
    c.compute (t'.value truth) = c.compute (t.value truth) :=
  compute_congr fun d hd => h.value truth (inRange_iff.mp hc d hd)

theorem truth?_grows (h : t.Grows t') {d : Nat} (hd : d < t.size) : truth? t' d = truth? t d := by
  rw [truth?, truth?, h.node hd]

theorem immediate?_grows (h : t.Grows t') (hc : c.InRange t.size) :
    c.immediate? t' = c.immediate? t := by
  cases c with
  | unary op f => rfl
  | binary op f g =>
    simp only [immediate?, truth?_grows h hc.1, truth?_grows h hc.2, h.isZeroOne hc.1,
      h.isZeroOne hc.2]

end Grows

end Call

namespace Table

variable {α : Type} [Scalar α]

/-- The plain expansion of a call: the constant of its value if all operands are constants, and
otherwise the branch of the expansions of its halves at the smallest level, the low half first. -/
def expand (t : Table α) (c : Call) : Nat × Table α :=
  match _h : c.level? t with
  | none => t.terminal (c.compute (t.value fun _ => false))
  | some level =>
    let (low, t') := t.expand (c.cofactor t level false)
    let (high, t'') := t'.expand (c.cofactor t level true)
    t''.branch level low high
termination_by c.rank
decreasing_by all_goals exact Call.rank_cofactor_lt _h _

inductive Settled (t : Table α) : Call → Nat → Prop where
  | constant {c : Call} {d : Nat} (hlevel : c.level? t = none) (hd : d < t.size)
      (hnode : t.node d = .terminal (canonical (c.compute (t.value fun _ => false)))) :
      Settled t c d
  | same {c : Call} {d level : Nat} (hlevel : c.level? t = some level)
      (low : Settled t (c.cofactor t level false) d)
      (high : Settled t (c.cofactor t level true) d) : Settled t c d
  | branch {c : Call} {d level l h : Nat} (hlevel : c.level? t = some level)
      (low : Settled t (c.cofactor t level false) l)
      (high : Settled t (c.cofactor t level true) h) (hd : d < t.size)
      (hnode : t.node d = .branch level l h) : Settled t c d

theorem expand_constant {t : Table α} {c : Call} (h : c.level? t = none) :
    t.expand c = t.terminal (c.compute (t.value fun _ => false)) := by
  rw [expand]
  split
  next => rfl
  next level hlevel => rw [h] at hlevel; cases hlevel

theorem expand_branch {t t' t'' : Table α} {c : Call} {level low high : Nat}
    (h : c.level? t = some level) (hlow : t.expand (c.cofactor t level false) = (low, t'))
    (hhigh : t'.expand (c.cofactor t level true) = (high, t'')) :
    t.expand c = t''.branch level low high := by
  rw [expand]
  split
  next hlevel => rw [h] at hlevel; cases hlevel
  next level' hlevel =>
    rw [h] at hlevel
    cases hlevel
    simp only [hlow, hhigh]

namespace Settled

variable {levels : Nat} {t t' : Table α} {c : Call} {d : Nat}

theorem lt_size (h : t.Settled c d) : d < t.size := by
  induction h with
  | constant hlevel hd hnode => exact hd
  | same hlevel low high ihLow ihHigh => exact ihLow
  | branch hlevel low high hd hnode => exact hd

theorem grows (hgrows : t.Grows t') (h : t.Settled c d) (hc : c.InRange t.size) :
    t'.Settled c d := by
  induction h with
  | constant hlevel hd hnode =>
    refine .constant ((Call.level?_grows hgrows hc).trans hlevel) (hgrows.lt hd) ?_
    rw [hgrows.node hd, Call.compute_grows hgrows hc, hnode]
  | @same c d level hlevel low high ihLow ihHigh =>
    refine .same ((Call.level?_grows hgrows hc).trans hlevel) ?_ ?_
    · rw [Call.cofactor_grows hgrows hc]; exact ihLow (hc.cofactor level false)
    · rw [Call.cofactor_grows hgrows hc]; exact ihHigh (hc.cofactor level true)
  | @branch c d level l h hlevel low high hd hnode ihLow ihHigh =>
    refine .branch ((Call.level?_grows hgrows hc).trans hlevel) ?_ ?_ (hgrows.lt hd)
      ((hgrows.node hd).trans hnode)
    · rw [Call.cofactor_grows hgrows hc]; exact ihLow (hc.cofactor level false)
    · rw [Call.cofactor_grows hgrows hc]; exact ihHigh (hc.cofactor level true)

/-- The result of a settled call has the value of the call at every point. -/
theorem value (h : t.Settled c d) (truth : Nat → Bool) :
    t.value truth d = canonical (c.compute (t.value truth)) := by
  induction h with
  | constant hlevel hd hnode =>
    rw [value_terminal hnode, Call.compute_of_level?_eq_none hlevel _ truth]
  | @same c d level hlevel low high ihLow ihHigh =>
    rw [← c.compute_cofactor t truth level]
    cases truth level
    · exact ihLow
    · exact ihHigh
  | @branch c d level l h hlevel low high hd hnode ihLow ihHigh =>
    rw [← c.compute_cofactor t truth level, value_branch hnode]
    cases truth level
    · exact ihLow
    · exact ihHigh

/-- A result tests no level below those that its operands test. -/
theorem testsFrom (ht : t.WellFormed levels) (h : t.Settled c d) (hc : c.InRange t.size) {n : Nat}
    (hfrom : c.TestsFrom t n) : t.TestsFrom n d := by
  induction h generalizing n with
  | constant hlevel hd hnode => exact testsFrom_terminal hnode n
  | @same c d level hlevel low high ihLow ihHigh =>
    have hlow := ihLow (hc.cofactor level false) (Call.testsFrom_cofactor ht hc hlevel false)
    exact hlow.mono ((Call.le_of_testsFrom hlevel hfrom).trans level.le_succ)
  | branch hlevel low high hd hnode =>
    exact (testsFrom_branch hnode).mpr (Call.le_of_testsFrom hlevel hfrom)

variable [LawfulScalar α]

/-- Expanding a settled call changes nothing. -/
theorem expand_eq (ht : t.WellFormed levels) (h : t.Settled c d) : t.expand c = (d, t) := by
  induction h with
  | @constant c d hlevel hd hnode =>
    rw [expand_constant hlevel]
    exact ht.terminal_of_node hd hnode
  | @same c d level hlevel low high ihLow ihHigh =>
    rw [expand_branch hlevel ihLow ihHigh]
    exact t.branch_self level d
  | @branch c d level l h hlevel low high hd hnode ihLow ihHigh =>
    rw [expand_branch hlevel ihLow ihHigh]
    exact ht.branch_of_node hd hnode

/-- A call has one result. -/
theorem unique (ht : t.WellFormed levels) (h : t.Settled c d) {d' : Nat} (h' : t.Settled c d') :
    d = d' :=
  congrArg Prod.fst ((h.expand_eq ht).symm.trans (h'.expand_eq ht))

end Settled

structure Settles (levels : Nat) (t : Table α) (c : Call) (r : Nat × Table α) : Prop where
  wellFormed : r.2.WellFormed levels
  grows : t.Grows r.2
  settled : r.2.Settled c r.1

section Expand

variable [LawfulScalar α] {levels : Nat} {t : Table α} {c : Call}

/-- A call whose halves are settled is settled by the branch of their results. -/
theorem WellFormed.settles_branch (ht : t.WellFormed levels) (hc : c.InRange t.size)
    {level low high : Nat} (hlevel : c.level? t = some level)
    (hlow : t.Settled (c.cofactor t level false) low)
    (hhigh : t.Settled (c.cofactor t level true) high) :
    Settles levels t c (t.branch level low high) := by
  by_cases heq : low = high
  · subst heq
    rw [branch_self]
    exact ⟨ht, .refl t, .same hlevel hlow hhigh⟩
  · have hfits : t.Fits levels (.branch level low high) :=
      ⟨heq, Call.level?_lt ht hc hlevel,
        hlow.testsFrom ht (hc.cofactor level false) (Call.testsFrom_cofactor ht hc hlevel false),
        hhigh.testsFrom ht (hc.cofactor level true) (Call.testsFrom_cofactor ht hc hlevel true)⟩
    have hputs := ht.branch hlow.lt_size hhigh.lt_size hfits
    refine ⟨hputs.wellFormed, hputs.grows,
      .branch ((Call.level?_grows hputs.grows hc).trans hlevel) ?_ ?_ hputs.lt_size hputs.node⟩
    · rw [Call.cofactor_grows hputs.grows hc]
      exact hlow.grows hputs.grows (hc.cofactor level false)
    · rw [Call.cofactor_grows hputs.grows hc]
      exact hhigh.grows hputs.grows (hc.cofactor level true)

theorem WellFormed.expand (ht : t.WellFormed levels) (hc : c.InRange t.size) :
    Settles levels t c (t.expand c) := by
  induction hrank : c.rank using Nat.strongRecOn generalizing c t with
  | ind rank ih =>
    cases hlevel : c.level? t with
    | none =>
      have hputs := ht.terminal (c.compute (t.value fun _ => false))
      rw [expand_constant hlevel]
      refine ⟨hputs.wellFormed, hputs.grows, .constant ?_ hputs.lt_size ?_⟩
      · exact (Call.level?_grows hputs.grows hc).trans hlevel
      · rw [hputs.node, Call.compute_grows hputs.grows hc]
    | some level =>
      have hlow := ih _ (hrank ▸ Call.rank_cofactor_lt hlevel false) ht
        (hc.cofactor level false) rfl
      have hhigh := ih _ (hrank ▸ Call.rank_cofactor_lt hlevel true) hlow.wellFormed
        ((hc.cofactor level true).mono hlow.grows.size_le) rfl
      have hgrows := hlow.grows.trans hhigh.grows
      rw [expand_branch hlevel rfl rfl]
      have hbranch := hhigh.wellFormed.settles_branch (hc.mono hgrows.size_le)
        ((Call.level?_grows hgrows hc).trans hlevel)
        (by
          rw [Call.cofactor_grows hgrows hc]
          exact hlow.settled.grows hhigh.grows
            ((hc.cofactor level false).mono hlow.grows.size_le))
        (by
          rw [Call.cofactor_grows hgrows hc]
          exact hhigh.settled)
      exact ⟨hbranch.wellFormed, hgrows.trans hbranch.grows, hbranch.settled⟩

end Expand

end Table

end DecisionDiagrams
