import DecisionDiagrams.Diagram.Table
import DecisionDiagrams.Proofs.Scalar.Laws
import Mathlib.Order.Nat

/-! Well-formed tables. A table only grows, and a well-formed one stays so: it has each node once,
finds it by its key, has no branch with two equal children, and tests levels in ascending
order. -/
namespace DecisionDiagrams

open Scalar

/-- Nodes are told apart by their keys. -/
theorem Node.key_injective {α : Type} [Scalar α] [LawfulScalar α] {n n' : Node α}
    (h : n.key = n'.key) : n = n' := by
  cases n <;> cases n' <;> simp only [key, NodeKey.terminal.injEq, NodeKey.branch.injEq,
    reduceCtorEq] at h
  · rw [LawfulScalar.decode_injective _ _ h]
  · rw [h.1, h.2.1, h.2.2]

namespace Table

section Grows

variable {α : Type}

structure Grows (t t' : Table α) : Prop where
  size_le : t.size ≤ t'.size
  cell {d : Nat} : d < t.size → t'.cells[d]? = t.cells[d]?

theorem Grows.refl (t : Table α) : t.Grows t := ⟨Nat.le_refl _, fun _ => rfl⟩

variable {t t' t'' : Table α}

theorem Grows.trans (h : t.Grows t') (h' : t'.Grows t'') : t.Grows t'' :=
  ⟨h.size_le.trans h'.size_le,
    fun hd => (h'.cell (hd.trans_le h.size_le)).trans (h.cell hd)⟩

theorem Grows.lt (h : t.Grows t') {d : Nat} (hd : d < t.size) : d < t'.size :=
  hd.trans_le h.size_le

theorem Grows.isZeroOne (h : t.Grows t') {d : Nat} (hd : d < t.size) :
    t'.isZeroOne d = t.isZeroOne d := by
  rw [Table.isZeroOne, Table.isZeroOne, h.cell hd]

end Grows

variable {α : Type} [Scalar α]

def level? (t : Table α) (d : Nat) : Option Nat :=
  match t.node d with
  | .terminal _ => none
  | .branch level _ _ => some level

/-- The root of a diagram tests no level below `n`. -/
def TestsFrom (t : Table α) (n d : Nat) : Prop := ∀ level ∈ t.level? d, n ≤ level

theorem level?_branch {t : Table α} {d level low high : Nat}
    (h : t.node d = .branch level low high) : t.level? d = some level := by
  simp only [level?, h]

theorem level?_terminal {t : Table α} {d : Nat} {x : α} (h : t.node d = .terminal x) :
    t.level? d = none := by
  simp only [level?, h]

theorem testsFrom_terminal {t : Table α} {d : Nat} {x : α} (h : t.node d = .terminal x) (n : Nat) :
    t.TestsFrom n d := by
  simp [TestsFrom, level?_terminal h]

theorem testsFrom_branch {t : Table α} {d level low high : Nat}
    (h : t.node d = .branch level low high) {n : Nat} : t.TestsFrom n d ↔ n ≤ level := by
  simp [TestsFrom, level?_branch h]

theorem TestsFrom.mono {t : Table α} {n n' d : Nat} (h : t.TestsFrom n' d) (hn : n ≤ n') :
    t.TestsFrom n d := fun level hlevel => hn.trans (h level hlevel)

namespace Grows

variable {t t' : Table α}

theorem node (h : t.Grows t') {d : Nat} (hd : d < t.size) : t'.node d = t.node d := by
  rw [Table.node, Table.node, h.cell hd]

theorem level? (h : t.Grows t') {d : Nat} (hd : d < t.size) : t'.level? d = t.level? d := by
  rw [Table.level?, Table.level?, h.node hd]

theorem testsFrom (h : t.Grows t') {n d : Nat} (hd : d < t.size) :
    t'.TestsFrom n d ↔ t.TestsFrom n d := by
  rw [TestsFrom, TestsFrom, h.level? hd]

end Grows

section Push

variable (t : Table α) (n : Node α) (h : n.Below t.size)

@[simp] theorem size_push : (t.push n h).size = t.size + 1 := by simp [size, push]

theorem grows_push : t.Grows (t.push n h) where
  size_le := by simp
  cell hd := by
    simp only [push, Array.getElem?_push]
    exact if_neg hd.ne

@[simp] theorem node_push : (t.push n h).node t.size = n := by simp [node, push, size]

@[simp] theorem isZeroOne_push : (t.push n h).isZeroOne t.size = t.isZeroOneNode n := by
  simp [isZeroOne, push, size]

theorem getElem?_numbers_push (k : NodeKey) :
    (t.push n h).numbers[k]? = if n.key = k then some t.size else t.numbers[k]? := by
  simp [push, Std.HashMap.getElem?_insert]

end Push

/-- What may be put into a table that has `levels` levels. -/
def Fits (levels : Nat) (t : Table α) : Node α → Prop
  | .terminal x => canonical x = x
  | .branch level low high =>
    low ≠ high ∧ level < levels ∧ t.TestsFrom (level + 1) low ∧ t.TestsFrom (level + 1) high

/-- Whether the terminals below a node are among the first two, read off its children. -/
def readsZeroOne (t : Table α) (d : Nat) : Bool :=
  match t.node d with
  | .terminal _ => d = zero ∨ d = one
  | .branch _ low high => t.isZeroOne low && t.isZeroOne high

structure WellFormed (levels : Nat) (t : Table α) : Prop where
  one_lt_size : one < t.size
  node_zero : t.node zero = .terminal Scalar.zero
  node_one : t.node one = .terminal Scalar.one
  getElem?_numbers (k : NodeKey) (d : Nat) :
    t.numbers[k]? = some d ↔ d < t.size ∧ (t.node d).key = k
  fits {d : Nat} : d < t.size → t.Fits levels (t.node d)
  isZeroOne {d : Nat} : d < t.size → t.isZeroOne d = t.readsZeroOne d

theorem Fits.grows {levels : Nat} {t t' : Table α} (h : t.Grows t') {n : Node α}
    (hn : n.Below t.size) (hfits : t.Fits levels n) : t'.Fits levels n := by
  cases n with
  | terminal => exact hfits
  | branch level low high =>
    obtain ⟨hne, hlevel, hlow, hhigh⟩ := hfits
    exact ⟨hne, hlevel, (h.testsFrom hn.1).mpr hlow, (h.testsFrom hn.2).mpr hhigh⟩

theorem node_below_size {t : Table α} {d : Nat} (hd : d < t.size) : (t.node d).Below t.size :=
  (t.node_below d).mono hd.le

theorem Grows.readsZeroOne {t t' : Table α} (h : t.Grows t') {d : Nat} (hd : d < t.size) :
    t'.readsZeroOne d = t.readsZeroOne d := by
  have hbelow := node_below_size hd
  unfold Table.readsZeroOne
  rw [h.node hd]
  split
  next => rfl
  next hnode =>
    rw [hnode] at hbelow
    rw [h.isZeroOne hbelow.1, h.isZeroOne hbelow.2]

namespace WellFormed

variable {levels : Nat} {t : Table α}

theorem zero_lt_size (ht : t.WellFormed levels) : zero < t.size :=
  Nat.zero_lt_of_lt ht.one_lt_size

/-- More levels may be tested later. -/
theorem mono (ht : t.WellFormed levels) {levels' : Nat} (h : levels ≤ levels') :
    t.WellFormed levels' where
  one_lt_size := ht.one_lt_size
  node_zero := ht.node_zero
  node_one := ht.node_one
  getElem?_numbers := ht.getElem?_numbers
  isZeroOne := ht.isZeroOne
  fits {d} hd := by
    have hfits := ht.fits hd
    cases hn : t.node d with
    | terminal x => simpa only [hn, Fits] using hfits
    | branch level low high =>
      rw [hn] at hfits
      exact ⟨hfits.1, hfits.2.1.trans_le h, hfits.2.2⟩

theorem canonical_terminal (ht : t.WellFormed levels) {d : Nat} (hd : d < t.size) {x : α}
    (h : t.node d = .terminal x) : canonical x = x := by
  simpa only [h, Fits] using ht.fits hd

theorem branch_fits (ht : t.WellFormed levels) {d level low high : Nat} (hd : d < t.size)
    (h : t.node d = .branch level low high) :
    low ≠ high ∧ level < levels ∧ t.TestsFrom (level + 1) low ∧ t.TestsFrom (level + 1) high := by
  simpa only [h, Fits] using ht.fits hd

theorem isZeroOne_terminal (ht : t.WellFormed levels) {d : Nat} (hd : d < t.size) {x : α}
    (h : t.node d = .terminal x) : t.isZeroOne d = true ↔ d = zero ∨ d = one := by
  rw [ht.isZeroOne hd, readsZeroOne, h, decide_eq_true_eq]

theorem isZeroOne_branch (ht : t.WellFormed levels) {d level low high : Nat} (hd : d < t.size)
    (h : t.node d = .branch level low high) :
    t.isZeroOne d = (t.isZeroOne low && t.isZeroOne high) := by
  rw [ht.isZeroOne hd, readsZeroOne, h]

theorem getElem?_numbers_push_iff (ht : t.WellFormed levels) {n : Node α} (h : n.Below t.size)
    (hnew : t.numbers[n.key]? = none) (k : NodeKey) (d : Nat) :
    (t.push n h).numbers[k]? = some d ↔
      d < (t.push n h).size ∧ ((t.push n h).node d).key = k := by
  have hgrows := t.grows_push n h
  rw [getElem?_numbers_push, size_push, Nat.lt_succ_iff_lt_or_eq]
  split
  next hk =>
    subst hk
    constructor
    · rintro ⟨⟩
      exact ⟨.inr rfl, by rw [node_push]⟩
    · rintro ⟨hd | rfl, hkey⟩
      · rw [hgrows.node hd] at hkey
        have hfound := (ht.getElem?_numbers _ d).mpr ⟨hd, hkey⟩
        rw [hnew] at hfound
        cases hfound
      · rfl
  next hk =>
    rw [ht.getElem?_numbers]
    constructor
    · rintro ⟨hd, hkey⟩
      exact ⟨.inl hd, by rw [hgrows.node hd, hkey]⟩
    · rintro ⟨hd | rfl, hkey⟩
      · exact ⟨hd, by rw [← hgrows.node hd, hkey]⟩
      · rw [node_push] at hkey
        exact absurd hkey hk

theorem push (ht : t.WellFormed levels) {n : Node α} (h : n.Below t.size)
    (hnew : t.numbers[n.key]? = none) (hfits : t.Fits levels n) :
    (t.push n h).WellFormed levels := by
  have hgrows := t.grows_push n h
  refine
    { one_lt_size := hgrows.lt ht.one_lt_size
      node_zero := (hgrows.node ht.zero_lt_size).trans ht.node_zero
      node_one := (hgrows.node ht.one_lt_size).trans ht.node_one
      getElem?_numbers := ht.getElem?_numbers_push_iff h hnew
      fits := fun {d} hd => ?_
      isZeroOne := fun {d} hd => ?_ }
  · rw [size_push, Nat.lt_succ_iff_lt_or_eq] at hd
    rcases hd with hd | rfl
    · rw [hgrows.node hd]
      exact (ht.fits hd).grows hgrows (node_below_size hd)
    · rw [node_push]
      exact hfits.grows hgrows h
  · rw [size_push, Nat.lt_succ_iff_lt_or_eq] at hd
    rcases hd with hd | rfl
    · rw [hgrows.isZeroOne hd, hgrows.readsZeroOne hd, ht.isZeroOne hd]
    -- Zero and one are in the table already, so that a new terminal is neither.
    · rw [isZeroOne_push, readsZeroOne, node_push]
      cases n with
      | terminal x =>
        have hne : ¬(t.size = zero ∨ t.size = one) :=
          not_or.mpr ⟨ht.zero_lt_size.ne', ht.one_lt_size.ne'⟩
        simp only [isZeroOneNode, hne, decide_false]
      | branch level low high =>
        simp only [isZeroOneNode, hgrows.isZeroOne h.1, hgrows.isZeroOne h.2]

variable [LawfulScalar α]

theorem getElem?_numbers_key (ht : t.WellFormed levels) (n : Node α) (d : Nat) :
    t.numbers[n.key]? = some d ↔ d < t.size ∧ t.node d = n := by
  rw [ht.getElem?_numbers]
  exact and_congr_right fun _ => ⟨Node.key_injective, fun h => h ▸ rfl⟩

/-- No node is in the table twice. -/
theorem node_injective (ht : t.WellFormed levels) {d d' : Nat} (hd : d < t.size)
    (hd' : d' < t.size) (h : t.node d = t.node d') : d = d' := by
  have hfirst := (ht.getElem?_numbers_key _ d).mpr ⟨hd, h⟩
  have hsecond := (ht.getElem?_numbers_key _ d').mpr ⟨hd', rfl⟩
  exact Option.some.inj (hfirst.symm.trans hsecond)

end WellFormed

structure Puts (levels : Nat) (t : Table α) (n : Node α) (r : Nat × Table α) : Prop where
  wellFormed : r.2.WellFormed levels
  grows : t.Grows r.2
  lt_size : r.1 < r.2.size
  node : r.2.node r.1 = n

namespace WellFormed

variable {levels : Nat} {t : Table α} [LawfulScalar α]

theorem insert_of_node (ht : t.WellFormed levels) {n : Node α} (h : n.Below t.size) {d : Nat}
    (hd : d < t.size) (hnode : t.node d = n) : t.insert n h = (d, t) := by
  simp only [insert, (ht.getElem?_numbers_key n d).mpr ⟨hd, hnode⟩]

theorem insert (ht : t.WellFormed levels) {n : Node α} (h : n.Below t.size)
    (hfits : t.Fits levels n) : Puts levels t n (t.insert n h) := by
  unfold Table.insert
  split
  next d hfound =>
    obtain ⟨hd, hnode⟩ := (ht.getElem?_numbers_key n d).mp hfound
    exact ⟨ht, .refl t, hd, hnode⟩
  next hnew =>
    exact ⟨ht.push h hnew hfits, t.grows_push n h, by simp, t.node_push n h⟩

theorem terminal (ht : t.WellFormed levels) (x : α) :
    Puts levels t (.terminal (canonical x)) (t.terminal x) :=
  ht.insert (n := .terminal (canonical x)) trivial (canonical_canonical x)

theorem terminal_of_node (ht : t.WellFormed levels) {d : Nat} (hd : d < t.size) {x : α}
    (h : t.node d = .terminal (canonical x)) : t.terminal x = (d, t) :=
  ht.insert_of_node (n := .terminal (canonical x)) trivial hd h

theorem branch (ht : t.WellFormed levels) {level low high : Nat} (hlow : low < t.size)
    (hhigh : high < t.size) (hfits : t.Fits levels (.branch level low high)) :
    Puts levels t (.branch level low high) (t.branch level low high) := by
  rw [Table.branch, dif_pos ⟨hfits.1, hlow, hhigh⟩]
  exact ht.insert _ hfits

theorem branch_of_node (ht : t.WellFormed levels) {d level low high : Nat} (hd : d < t.size)
    (h : t.node d = .branch level low high) : t.branch level low high = (d, t) := by
  have hbelow := node_below_size hd
  rw [h] at hbelow
  rw [Table.branch, dif_pos ⟨(ht.branch_fits hd h).1, hbelow⟩]
  exact ht.insert_of_node _ hd h

end WellFormed

theorem grows_insert (t : Table α) (n : Node α) (h : n.Below t.size) :
    t.Grows (t.insert n h).2 := by
  unfold insert
  split
  next => exact .refl t
  next => exact t.grows_push n h

theorem grows_branch (t : Table α) (level low high : Nat) :
    t.Grows (t.branch level low high).2 := by
  unfold branch
  split
  next => exact t.grows_insert _ _
  next => exact .refl t

theorem branch_self (t : Table α) (level d : Nat) : t.branch level d d = (d, t) := by
  rw [branch, dif_neg (fun h => h.1 rfl)]

theorem lt_size_insert {t : Table α} {n : Node α} {h : n.Below t.size} {r : Nat}
    (hr : r < (t.insert n h).2.size) : r < t.size ∨ r = (t.insert n h).1 := by
  unfold insert at hr ⊢
  split at hr
  next => exact .inl hr
  next hnew =>
    rw [size_push, Nat.lt_succ_iff_lt_or_eq] at hr
    exact hr

theorem lt_size_branch {t : Table α} {level low high r : Nat}
    (hr : r < (t.branch level low high).2.size) : r < t.size ∨ r = (t.branch level low high).1 := by
  by_cases h : low ≠ high ∧ low < t.size ∧ high < t.size
  · rw [branch, dif_pos h] at hr ⊢
    exact lt_size_insert hr
  · rw [branch, dif_neg h] at hr
    exact .inl hr

theorem initial_wellFormed [LawfulScalar α] (levels : Nat) :
    (initial : Table α).WellFormed levels := by
  have hne : (Node.terminal (Scalar.one : α)).key ≠ (Node.terminal (Scalar.zero : α)).key := by
    intro h
    cases ofBool_injective (b := true) (c := false) (Node.terminal.inj (Node.key_injective h))
  refine
    { one_lt_size := Nat.lt_succ_self 1
      node_zero := rfl
      node_one := rfl
      getElem?_numbers := fun k d => ?_
      fits := fun {d} hd => ?_
      isZeroOne := fun {d} hd => ?_ }
  · simp only [initial, Std.HashMap.getElem?_insert, beq_iff_eq]
    constructor
    · intro h
      split at h
      next hk => cases h; exact ⟨Nat.lt_succ_self 1, hk⟩
      split at h
      next hk => cases h; exact ⟨Nat.zero_lt_two, hk⟩
      next => simp at h
    · rintro ⟨hd, rfl⟩
      match d, hd with
      | 0, _ => exact (if_neg hne).trans (if_pos rfl)
      | 1, _ => exact if_pos rfl
  · match d, hd with
    | 0, _ => exact canonical_zero
    | 1, _ => exact canonical_one
  · match d, hd with
    | 0, _ => rfl
    | 1, _ => rfl

end Table

end DecisionDiagrams
