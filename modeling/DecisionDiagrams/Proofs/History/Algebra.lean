import DecisionDiagrams.Proofs.Compile.Equivalence
import DecisionDiagrams.Proofs.History.Pointwise

/-! Laws of operations on diagrams. Two ways to compose diagrams come to the same diagram exactly if
they have the same values everywhere. So what holds of numbers and of truth values holds of diagrams
as an equality, whatever has been asked of the manager before and in between. -/
namespace DecisionDiagrams

open Scalar

inductive Composite where
  | given (d : Nat)
  | unary (op : UnaryOp) (c : Composite)
  | binary (op : BinaryOp) (c c' : Composite)

namespace Composite

instance : Coe Nat Composite := ⟨given⟩

def InRange (size : Nat) : Composite → Prop
  | given d => d < size
  | unary _ c => c.InRange size
  | binary _ c c' => c.InRange size ∧ c'.InRange size

theorem InRange.mono {size size' : Nat} (hle : size ≤ size') {c : Composite}
    (h : c.InRange size) : c.InRange size' := by
  induction c with
  | given d => exact h.trans_le hle
  | unary op c ih => exact ih h
  | binary op c c' ih ih' => exact ⟨ih h.1, ih' h.2⟩

/-- The compositions that keep of a diagram only where it is true. -/
def truths (f : Nat) : List Composite :=
  [binary .and f f, binary .or f f, binary .and f Table.one, binary .or f Table.zero,
    unary .complement (unary .complement f)]

variable {α : Type} [Scalar α]

/-- The value, if the given diagrams have values. -/
def value (v : Nat → α) : Composite → α
  | given d => v d
  | unary op c => op.compute (c.value v)
  | binary op c c' => op.compute (c.value v) (c'.value v)

theorem InRange.value_congr {size : Nat} {c : Composite} (h : c.InRange size) {v v' : Nat → α}
    (hv : ∀ d, d < size → v d = v' d) : c.value v = c.value v' := by
  induction c with
  | given d => exact hv d h
  | unary op c ih => rw [value, value, ih h]
  | binary op c c' ih ih' => rw [value, value, ih h.1, ih' h.2]

theorem inRange_of_mem_truths {size f : Nat} (hsize : 1 < size) (hf : f < size) {c : Composite}
    (hc : c ∈ truths f) : c.InRange size := by
  have hzero : Table.zero < size := Nat.zero_lt_of_lt hsize
  simp only [truths, List.mem_cons, List.not_mem_nil, or_false] at hc
  rcases hc with rfl | rfl | rfl | rfl | rfl
  · exact ⟨hf, hf⟩
  · exact ⟨hf, hf⟩
  · exact ⟨hf, hsize⟩
  · exact ⟨hf, hzero⟩
  · exact hf

theorem value_of_mem_truths [LawfulScalar α] {f : Nat} {c : Composite} (hc : c ∈ truths f)
    {v : Nat → α} (hzero : v Table.zero = Scalar.zero) (hone : v Table.one = Scalar.one) :
    c.value v = ofBool (isTrue (v f)) := by
  have htrue : isTrue (v Table.one) = true := hone ▸ isTrue_ofBool true
  have hfalse : isTrue (v Table.zero) = false := hzero ▸ isTrue_ofBool false
  simp only [truths, List.mem_cons, List.not_mem_nil, or_false] at hc
  rcases hc with rfl | rfl | rfl | rfl | rfl
  · simp only [value, BinaryOp.compute, Bool.and_self]
  · simp only [value, BinaryOp.compute, Bool.or_self]
  · simp only [value, BinaryOp.compute, htrue, Bool.and_true]
  · simp only [value, BinaryOp.compute, hfalse, Bool.or_false]
  · simp only [value, UnaryOp.compute, isTrue_ofBool, Bool.not_not]

end Composite

/-- Truth values are the numbers that are left as they are by taking their truth value. -/
theorem Scalar.same_ofBool_isTrue_iff {α : Type} [Scalar α] [LawfulScalar α] {x : α} :
    Same (ofBool (isTrue x)) x ↔ x = zero ∨ x = one := by
  constructor
  · intro h
    rw [h.symm.eq_ofBool]
    cases isTrue x
    · exact .inl rfl
    · exact .inr rfl
  · rintro (rfl | rfl)
    · exact .inl (congrArg ofBool (isTrue_ofBool false))
    · exact .inl (congrArg ofBool (isTrue_ofBool true))

namespace Manager

variable {α : Type} [Scalar α]

/-- Carries out the operations, those of the left operand before those of the right one. -/
def compose? (m : Manager α) : Composite → Option Nat × Manager α
  | .given d => (some d, m)
  | .unary op c =>
    match m.compose? c with
    | (some d, m) => m.perform? (.unary op d)
    | (none, m) => (none, m)
  | .binary op c c' =>
    match m.compose? c with
    | (some d, m) =>
      match m.compose? c' with
      | (some d', m) => m.perform? (.binary op d d')
      | (none, m) => (none, m)
    | (none, m) => (none, m)

/-- Composed first, `c` is the diagram that `c'` is from then on, whatever is asked in between. -/
def Foretells (m : Manager α) (c c' : Composite) : Prop :=
  ∃ d m', m.compose? c = (some d, m') ∧ ∀ requests : List (Request α),
    (∀ r ∈ requests, r ≠ .clear) → ((m'.afterAll requests).compose? c').1 = some d

def Coincide (m : Manager α) (c c' : Composite) : Prop := m.Foretells c c' ∧ m.Foretells c' c

structure Laws (m : Manager α) (f g h : Nat) : Prop where
  commute : ∀ op ∈ [BinaryOp.add, .multiply, .and, .or],
    m.Coincide (.binary op f g) (.binary op g f)
  subtract : m.Coincide (.binary .subtract f g) (.binary .add f (.unary .negate g))
  negate_negate : m.Coincide (.unary .negate (.unary .negate f)) f
  multiply_negate : m.Coincide (.binary .multiply (.unary .negate f) g)
    (.unary .negate (.binary .multiply f g))
  associate : ∀ op ∈ [BinaryOp.and, .or],
    m.Coincide (.binary op (.binary op f g) h) (.binary op f (.binary op g h))
  and_or : m.Coincide (.binary .and f (.binary .or g h))
    (.binary .or (.binary .and f g) (.binary .and f h))
  or_and : m.Coincide (.binary .or f (.binary .and g h))
    (.binary .and (.binary .or f g) (.binary .or f h))
  complement_and : m.Coincide (.unary .complement (.binary .and f g))
    (.binary .or (.unary .complement f) (.unary .complement g))
  complement_or : m.Coincide (.unary .complement (.binary .or f g))
    (.binary .and (.unary .complement f) (.unary .complement g))
  truths : ∀ c ∈ Composite.truths f, ∀ c' ∈ Composite.truths f, m.Coincide c c'
  /-- Only a diagram of zeros and ones remains as it is. -/
  truths_eq_iff : ∀ c ∈ Composite.truths f, ∃ d m', m.compose? c = (some d, m') ∧
    (d = f ↔ m.IsZeroOneValued f)

variable [LawfulScalar α] {m m' : Manager α} {c c' : Composite} {d d' : Nat}

structure IsComposed (m m' : Manager α) (c : Composite) (d : Nat) : Prop where
  keeps : m.Keeps m'
  lt_size : d < m'.table.size
  value (a : Assignment) : Same (m'.table.value a.truth d) (c.value (m.table.value a.truth))

omit [LawfulScalar α] in
/-- Given diagrams are worth the same later. -/
theorem Keeps.value_composite (h : m.Keeps m') (hc : c.InRange m.table.size) (a : Assignment) :
    c.value (m'.table.value a.truth) = c.value (m.table.value a.truth) :=
  hc.value_congr fun _ hd => h.grows.table.value a.truth hd

/-- Two composed diagrams are one exactly if the composites have the same value everywhere. -/
theorem IsComposed.eq_iff {m₁ m₂ : Manager α} (h : m.IsComposed m' c d) (hlater : m'.Keeps m₁)
    (h' : m₁.IsComposed m₂ c' d') (hc' : c'.InRange m.table.size) :
    d = d' ↔ ∀ a : Assignment,
      Same (c.value (m.table.value a.truth)) (c'.value (m.table.value a.truth)) := by
  have hgrows := (hlater.trans h'.keeps).grows.table
  rw [h'.keeps.wellFormed.table.eq_iff_same (h.lt_size.trans_le hgrows.size_le) h'.lt_size]
  apply forall_congr'
  intro a
  have hd := h.value a
  have hd' := h'.value a
  rw [(h.keeps.trans hlater).value_composite hc'] at hd'
  rw [hgrows.value a.truth h.lt_size]
  constructor
  · intro hsame
    exact hd.symm.trans (hsame.trans hd')
  · intro hsame
    exact hd.trans (hsame.trans hd'.symm)

namespace WellFormed

omit [LawfulScalar α] in
theorem isComposed_given (hm : m.WellFormed) (hd : d < m.table.size) :
    m.IsComposed m (.given d) d :=
  ⟨hm.keeps, hd, fun _ => .refl _⟩

theorem exists_compose (hm : m.WellFormed) (hc : c.InRange m.table.size) :
    ∃ d m', m.compose? c = (some d, m') ∧ m.IsComposed m' c d := by
  induction c generalizing m with
  | given d => exact ⟨d, m, rfl, hm.isComposed_given hc⟩
  | unary op c ih =>
    obtain ⟨f, m₁, hf, hcomposed⟩ := ih hm hc
    obtain ⟨d, m₂, hd, hkeeps, hlt, hvalue⟩ := hcomposed.keeps.wellFormed.exists_performed
      (c := .unary op f) hcomposed.lt_size
    refine ⟨d, m₂, by simp only [compose?, hf, hd], hcomposed.keeps.trans hkeeps, hlt, ?_⟩
    intro a
    exact (hvalue a).trans (op.compute_congr (hcomposed.value a))
  | binary op c c' ih ih' =>
    obtain ⟨hc, hc'⟩ := hc
    obtain ⟨f, m₁, hf, hleft⟩ := ih hm hc
    obtain ⟨g, m₂, hg, hright⟩ :=
      ih' hleft.keeps.wellFormed (hc'.mono hleft.keeps.grows.table.size_le)
    have hgrows := hright.keeps.grows.table
    obtain ⟨d, m₃, hd, hkeeps, hlt, hvalue⟩ := hright.keeps.wellFormed.exists_performed
      (c := .binary op f g) ⟨hleft.lt_size.trans_le hgrows.size_le, hright.lt_size⟩
    refine ⟨d, m₃, by simp only [compose?, hf, hg, hd],
      (hleft.keeps.trans hright.keeps).trans hkeeps, hlt, ?_⟩
    intro a
    have hx := hleft.value a
    have hy := hright.value a
    rw [← hgrows.value a.truth hleft.lt_size] at hx
    rw [hleft.keeps.value_composite hc'] at hy
    exact (hvalue a).trans (op.compute_congr hx hy)

theorem foretells (hm : m.WellFormed) (hc : c.InRange m.table.size)
    (hc' : c'.InRange m.table.size) (h : ∀ a : Assignment,
      Same (c.value (m.table.value a.truth)) (c'.value (m.table.value a.truth))) :
    m.Foretells c c' := by
  obtain ⟨d, m', hd, hcomposed⟩ := hm.exists_compose hc
  refine ⟨d, m', hd, ?_⟩
  intro requests hrequests
  have hlater := hcomposed.keeps.wellFormed.keeps_afterAll hrequests
  have hle := (hcomposed.keeps.trans hlater).grows.table.size_le
  obtain ⟨d', m'', hd', hcomposed'⟩ := hlater.wellFormed.exists_compose (hc'.mono hle)
  rw [hd', (hcomposed.eq_iff hlater hcomposed' hc').mpr h]

/-- What holds of the values of operands holds of diagrams. -/
theorem coincide (hm : m.WellFormed) (hc : c.InRange m.table.size)
    (hc' : c'.InRange m.table.size) (h : ∀ v : Nat → α, v Table.zero = Scalar.zero →
      v Table.one = Scalar.one → Same (c.value v) (c'.value v)) : m.Coincide c c' := by
  have hsame (a : Assignment) := h (m.table.value a.truth)
    (Table.value_terminal hm.table.node_zero _) (Table.value_terminal hm.table.node_one _)
  exact ⟨hm.foretells hc hc' hsame, hm.foretells hc' hc fun a => (hsame a).symm⟩

/-- To take truth values gives the same diagram exactly if all values are truth values. -/
theorem truths_eq_iff (hm : m.WellFormed) {f : Nat} (hf : f < m.table.size)
    (hc : c ∈ Composite.truths f) :
    ∃ d m', m.compose? c = (some d, m') ∧ (d = f ↔ m.IsZeroOneValued f) := by
  obtain ⟨d, m', hd, hcomposed⟩ :=
    hm.exists_compose (Composite.inRange_of_mem_truths hm.table.one_lt_size hf hc)
  have hgiven := hcomposed.keeps.wellFormed.isComposed_given
    (hf.trans_le hcomposed.keeps.grows.table.size_le)
  refine ⟨d, m', hd, ?_⟩
  rw [hcomposed.eq_iff hcomposed.keeps.wellFormed.keeps hgiven hf]
  apply forall_congr'
  intro a
  rw [Composite.value_of_mem_truths hc (Table.value_terminal hm.table.node_zero _)
    (Table.value_terminal hm.table.node_one _), value?_of_lt hf, Option.some.injEq,
    Option.some.injEq]
  exact same_ofBool_isTrue_iff

end WellFormed

/-- Operations on diagrams obey the laws of operations on numbers and on truth values, also where
the operands of a connective have other values than zero and one. -/
theorem operations_algebraic (hm : m.Reachable) (hsigns : SignLaws α) {f g h : Nat}
    (hf : m.contains f = true) (hg : m.contains g = true) (hh : m.contains h = true) :
    m.Laws f g h := by
  have hwell := hm.wellFormed
  have hf := lt_of_contains hf
  have hg := lt_of_contains hg
  have hh := lt_of_contains hh
  have htruths {c : Composite} (hc : c ∈ Composite.truths f) : c.InRange m.table.size :=
    Composite.inRange_of_mem_truths hwell.table.one_lt_size hf hc
  constructor
  case commute =>
    intro op hop
    have hcomm : op.isCommutative = true := by
      revert op
      decide
    refine hwell.coincide ⟨hf, hg⟩ ⟨hg, hf⟩ fun v _ _ => ?_
    exact op.compute_comm hcomm (v f) (v g)
  case subtract =>
    exact hwell.coincide ⟨hf, hg⟩ ⟨hf, hg⟩ fun v _ _ => hsigns.subtract_eq (v f) (v g)
  case negate_negate =>
    exact hwell.coincide hf hf fun v _ _ => hsigns.negatesBack (v f)
  case multiply_negate =>
    exact hwell.coincide ⟨hf, hg⟩ ⟨hf, hg⟩ fun v _ _ => hsigns.multiply_negate (v f) (v g)
  case associate =>
    intro op hop
    refine hwell.coincide ⟨⟨hf, hg⟩, hh⟩ ⟨hf, hg, hh⟩ fun v _ _ => .inl ?_
    simp only [List.mem_cons, List.not_mem_nil, or_false] at hop
    rcases hop with rfl | rfl
    · simp only [Composite.value, BinaryOp.compute, isTrue_ofBool, Bool.and_assoc]
    · simp only [Composite.value, BinaryOp.compute, isTrue_ofBool, Bool.or_assoc]
  case and_or =>
    refine hwell.coincide ⟨hf, hg, hh⟩ ⟨⟨hf, hg⟩, hf, hh⟩ fun v _ _ => .inl ?_
    simp only [Composite.value, BinaryOp.compute, isTrue_ofBool, Bool.and_or_distrib_left]
  case or_and =>
    refine hwell.coincide ⟨hf, hg, hh⟩ ⟨⟨hf, hg⟩, hf, hh⟩ fun v _ _ => .inl ?_
    simp only [Composite.value, BinaryOp.compute, isTrue_ofBool, Bool.or_and_distrib_left]
  case complement_and =>
    refine hwell.coincide ⟨hf, hg⟩ ⟨hf, hg⟩ fun v _ _ => .inl ?_
    simp only [Composite.value, BinaryOp.compute, UnaryOp.compute, isTrue_ofBool, Bool.not_and]
  case complement_or =>
    refine hwell.coincide ⟨hf, hg⟩ ⟨hf, hg⟩ fun v _ _ => .inl ?_
    simp only [Composite.value, BinaryOp.compute, UnaryOp.compute, isTrue_ofBool, Bool.not_or]
  case truths =>
    intro c hc c' hc'
    refine hwell.coincide (htruths hc) (htruths hc') fun v hzero hone => .inl ?_
    rw [Composite.value_of_mem_truths hc hzero hone, Composite.value_of_mem_truths hc' hzero hone]
  case truths_eq_iff =>
    intro c hc
    exact hwell.truths_eq_iff hf hc

theorem negative_zero_algebraic :
    let m := (((initial : Manager Float).indicator "p").2.constant (-0)).2
    let p := ((initial : Manager Float).indicator "p").1
    let g := (((initial : Manager Float).indicator "p").2.constant (-0)).1
    m.Reachable ∧ SignLaws Float ∧ m.contains p = true ∧ m.contains g = true ∧
      m.contains Table.one = true ∧ m.Laws p g Table.one ∧ ¬m.IsZeroOneValued g := by
  intro m p g
  have hm : m.Reachable := ⟨[.indicator "p", .constant (-0)], rfl⟩
  have hputs := (initial_wellFormed (α := Float)).puts_indicator "p"
  have hconstant := ((initial_wellFormed (α := Float)).indicator "p").wellFormed.puts_constant (-0)
  have hp : m.contains p = true := decide_eq_true (hconstant.grows.lt hputs.lt_size)
  have hg : m.contains g = true := decide_eq_true hconstant.lt_size
  have hone : m.contains Table.one = true := decide_eq_true hm.wellFormed.table.one_lt_size
  refine ⟨hm, signLaws_float, hp, hg, hone, operations_algebraic hm signLaws_float hp hg hone, ?_⟩
  intro hvalued
  have hvalue := hvalued #[]
  rw [value?_of_lt hconstant.lt_size, Table.value_terminal hconstant.node] at hvalue
  revert hvalue
  decide

end Manager

end DecisionDiagrams
