import DecisionDiagrams.Proofs.Diagram.Store
import DecisionDiagrams.Proofs.Loop.Nodes
import Mathlib.Data.Finset.Prod

/-! The parts of a call, which are the same operation on nodes of its operands. Whatever the
expansion of a call adds to the table is the result of a part, and so is every node of the result,
which bounds both by the number of parts. -/
namespace DecisionDiagrams

open Scalar

namespace Call

variable {α : Type} [Scalar α]

def parts (t : Table α) : Call → Finset Call
  | unary op f => (t.nodes f).image (unary op)
  | binary op f g => (t.nodes f ×ˢ t.nodes g).image fun (f, g) => binary op f g

/-- The product of the sizes of the operands. -/
def sizeProduct (t : Table α) : Call → Nat
  | unary _ f => t.nodeCount f
  | binary _ f g => t.nodeCount f * t.nodeCount g

variable {t t' : Table α} {c p q : Call}

theorem mem_parts_unary {op : UnaryOp} {f : Nat} :
    p ∈ (unary op f).parts t ↔ ∃ f', t.Reaches f f' ∧ unary op f' = p := by
  simp only [parts, Finset.mem_image, Table.mem_nodes]

theorem mem_parts_binary {op : BinaryOp} {f g : Nat} :
    p ∈ (binary op f g).parts t ↔
      ∃ f' g', t.Reaches f f' ∧ t.Reaches g g' ∧ binary op f' g' = p := by
  simp only [parts, Finset.mem_image, Finset.mem_product, Table.mem_nodes, Prod.exists, and_assoc]

theorem card_parts_le (t : Table α) (c : Call) : (c.parts t).card ≤ c.sizeProduct t := by
  cases c with
  | unary op f =>
    rw [sizeProduct, ← t.card_nodes]
    exact Finset.card_image_le
  | binary op f g =>
    rw [sizeProduct, ← t.card_nodes, ← t.card_nodes, ← Finset.card_product]
    exact Finset.card_image_le

theorem self_mem_parts (t : Table α) (c : Call) : c ∈ c.parts t := by
  cases c with
  | unary op f => exact mem_parts_unary.mpr ⟨f, .refl f, rfl⟩
  | binary op f g => exact mem_parts_binary.mpr ⟨f, g, .refl f, .refl g, rfl⟩

theorem parts_subset (hp : p ∈ c.parts t) : p.parts t ⊆ c.parts t := by
  intro q hq
  cases c with
  | unary op f =>
    obtain ⟨f', hf, rfl⟩ := mem_parts_unary.mp hp
    obtain ⟨f'', hf', rfl⟩ := mem_parts_unary.mp hq
    exact mem_parts_unary.mpr ⟨f'', hf.trans hf', rfl⟩
  | binary op f g =>
    obtain ⟨f', g', hf, hg, rfl⟩ := mem_parts_binary.mp hp
    obtain ⟨f'', g'', hf', hg', rfl⟩ := mem_parts_binary.mp hq
    exact mem_parts_binary.mpr ⟨f'', g'', hf.trans hf', hg.trans hg', rfl⟩

theorem cofactor_mem_parts (t : Table α) (level : Nat) (side : Bool) (c : Call) :
    c.cofactor t level side ∈ c.parts t := by
  cases c with
  | unary op f => exact mem_parts_unary.mpr ⟨_, t.reaches_cofactor level side f, rfl⟩
  | binary op f g =>
    exact mem_parts_binary.mpr
      ⟨_, _, t.reaches_cofactor level side f, t.reaches_cofactor level side g, rfl⟩

theorem InRange.of_mem_parts {size : Nat} (hc : c.InRange size) (hp : p ∈ c.parts t) :
    p.InRange size := by
  cases c with
  | unary op f =>
    obtain ⟨f', hf, rfl⟩ := mem_parts_unary.mp hp
    exact hf.le.trans_lt hc
  | binary op f g =>
    obtain ⟨f', g', hf, hg, rfl⟩ := mem_parts_binary.mp hp
    exact ⟨hf.le.trans_lt hc.1, hg.le.trans_lt hc.2⟩

theorem parts_grows (h : t.Grows t') (hc : c.InRange t.size) : c.parts t' = c.parts t := by
  cases c with
  | unary op f => rw [parts, parts, h.nodes_eq hc]
  | binary op f g => rw [parts, parts, h.nodes_eq hc.1, h.nodes_eq hc.2]

theorem sizeProduct_grows (h : t.Grows t') (hc : c.InRange t.size) :
    c.sizeProduct t' = c.sizeProduct t := by
  cases c with
  | unary op f => simp only [sizeProduct, ← Table.card_nodes, h.nodes_eq hc]
  | binary op f g => simp only [sizeProduct, ← Table.card_nodes, h.nodes_eq hc.1, h.nodes_eq hc.2]

end Call

namespace Table

variable {α : Type} [Scalar α] {t t' : Table α} {levels : Nat} {c : Call} {d : Nat}

/-- Every node of the result of a call is the result of a part. -/
theorem Settled.exists_part (h : t.Settled c d) {r : Nat} (hr : t.Reaches d r) :
    ∃ p ∈ c.parts t, t.Settled p r := by
  induction h with
  | @constant c d hlevel hd hnode =>
    cases hr with
    | refl => exact ⟨c, c.self_mem_parts t, .constant hlevel hd hnode⟩
    | low hn _ => rw [hnode] at hn; cases hn
    | high hn _ => rw [hnode] at hn; cases hn
  | @same c d level hlevel low high ihLow ihHigh =>
    obtain ⟨p, hp, hsettled⟩ := ihLow hr
    exact ⟨p, Call.parts_subset (c.cofactor_mem_parts t level false) hp, hsettled⟩
  | @branch c d level l h hlevel low high hd hnode ihLow ihHigh =>
    cases hr with
    | refl => exact ⟨c, c.self_mem_parts t, .branch hlevel low high hd hnode⟩
    | low hn hr =>
      rw [hnode] at hn
      cases hn
      obtain ⟨p, hp, hsettled⟩ := ihLow hr
      exact ⟨p, Call.parts_subset (c.cofactor_mem_parts t level false) hp, hsettled⟩
    | high hn hr =>
      rw [hnode] at hn
      cases hn
      obtain ⟨p, hp, hsettled⟩ := ihHigh hr
      exact ⟨p, Call.parts_subset (c.cofactor_mem_parts t level true) hp, hsettled⟩

variable [LawfulScalar α]

/-- Different numbers are results of different parts. -/
theorem WellFormed.card_le_of_settled (ht : t'.WellFormed levels) {numbers : Finset Nat}
    (h : ∀ r ∈ numbers, ∃ p ∈ c.parts t, t'.Settled p r) : numbers.card ≤ c.sizeProduct t := by
  refine le_trans ?_ (c.card_parts_le t)
  refine Finset.card_le_card_of_forall_subsingleton (fun r p => t'.Settled p r) h ?_
  rintro p - r ⟨-, hr⟩ r' ⟨-, hr'⟩
  exact hr.unique ht hr'

theorem Settled.nodeCount_le (ht : t.WellFormed levels) (h : t.Settled c d) :
    t.nodeCount d ≤ c.sizeProduct t := by
  rw [← t.card_nodes]
  exact ht.card_le_of_settled fun r hr => h.exists_part (mem_nodes.mp hr)

/-- Every node that the expansion of a call adds is the result of a part. -/
theorem WellFormed.exists_part_of_expand (ht : t.WellFormed levels) (hc : c.InRange t.size)
    {r : Nat} (hr : r < (t.expand c).2.size) :
    r < t.size ∨ ∃ p ∈ c.parts t, (t.expand c).2.Settled p r := by
  induction hrank : c.rank using Nat.strongRecOn generalizing c t with
  | ind rank ih =>
    have hsettles := ht.expand hc
    cases hlevel : c.level? t with
    | none =>
      rw [expand_constant hlevel] at hr hsettles ⊢
      rcases lt_size_insert hr with hr | rfl
      · exact .inl hr
      · exact .inr ⟨c, c.self_mem_parts t, hsettles.settled⟩
    | some level =>
      have hpart (side : Bool) := Call.parts_subset (c.cofactor_mem_parts t level side)
      have hcLow := hc.cofactor (t := t) level false
      have hlow := ht.expand hcLow
      have hcHigh := (hc.cofactor (t := t) level true).mono hlow.grows.size_le
      have hhigh := hlow.wellFormed.expand hcHigh
      have ihLow (hr : r < (t.expand (c.cofactor t level false)).2.size) :=
        ih _ (hrank ▸ Call.rank_cofactor_lt hlevel false) ht hcLow hr rfl
      have ihHigh (hr : r < ((t.expand (c.cofactor t level false)).2.expand
          (c.cofactor t level true)).2.size) :=
        ih _ (hrank ▸ Call.rank_cofactor_lt hlevel true) hlow.wellFormed hcHigh hr rfl
      rw [Call.parts_grows hlow.grows (hc.cofactor level true)] at ihHigh
      rw [expand_branch hlevel rfl rfl] at hr hsettles ⊢
      generalize t.expand (c.cofactor t level false) = low at *
      generalize low.2.expand (c.cofactor t level true) = high at *
      have hgrows := high.2.grows_branch level low.1 high.1
      rcases lt_size_branch hr with hr | rfl
      · rcases ihHigh hr with hr | ⟨p, hp, hsettled⟩
        · rcases ihLow hr with hr | ⟨p, hp, hsettled⟩
          · exact .inl hr
          · have hrange := (hcLow.of_mem_parts hp).mono hlow.grows.size_le
            exact .inr ⟨p, hpart false hp, hsettled.grows (hhigh.grows.trans hgrows) hrange⟩
        · have hrange := ((hc.cofactor level true).of_mem_parts hp).mono
            (hlow.grows.trans hhigh.grows).size_le
          exact .inr ⟨p, hpart true hp, hsettled.grows hgrows hrange⟩
      · exact .inr ⟨c, c.self_mem_parts t, hsettles.settled⟩

theorem WellFormed.size_expand_le (ht : t.WellFormed levels) (hc : c.InRange t.size) :
    (t.expand c).2.size ≤ t.size + c.sizeProduct t := by
  have hadded : (Finset.Ico t.size (t.expand c).2.size).card ≤ c.sizeProduct t := by
    refine (ht.expand hc).wellFormed.card_le_of_settled fun r hr => ?_
    obtain ⟨hle, hlt⟩ := Finset.mem_Ico.mp hr
    exact (ht.exists_part_of_expand hc hlt).resolve_left hle.not_gt
  rw [Nat.card_Ico] at hadded
  omega

end Table

end DecisionDiagrams
