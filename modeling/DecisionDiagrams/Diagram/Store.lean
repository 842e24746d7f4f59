import DecisionDiagrams.Diagram.Call

/-! Carrying out calls. A call splits until it is known, the low half is finished before the
high half, and what has been split is remembered. -/
namespace DecisionDiagrams

structure Store (α : Type) where
  table : Table α
  memo : Std.HashMap Call Nat

inductive Waiting where
  /-- The low half is under way, and the high half comes next. -/
  | low (key : Call) (level : Nat) (next : Call)
  /-- The low half is done, and the high half is under way. -/
  | high (key : Call) (level : Nat) (done : Nat)

inductive Focus where
  | call (c : Call)
  | result (d : Nat)

def Focus.weight : Focus → Nat
  | call c => Nat.pow 5 c.rank
  | result _ => 0

def Waiting.weight : Waiting → Nat
  | .low _ _ next => Nat.pow 5 next.rank + 2
  | .high _ _ _ => 1

def Waiting.weightAll : List Waiting → Nat
  | [] => 0
  | frame :: frames => frame.weight + weightAll frames

theorem five_pow_add_lt {a b c : Nat} (ha : a < c) (hb : b < c) :
    Nat.pow 5 a + (Nat.pow 5 b + 2) < Nat.pow 5 c := by
  obtain ⟨k, rfl⟩ : ∃ k, c = k + 1 := ⟨c - 1, by omega⟩
  have := Nat.pow_le_pow_right (n := 5) (by omega) (show a ≤ k by omega)
  have := Nat.pow_le_pow_right (n := 5) (by omega) (show b ≤ k by omega)
  have : 0 < 5 ^ k := Nat.pow_pos (by omega)
  simp only [Nat.pow_eq]
  rw [Nat.pow_succ]
  omega

structure Machine (α : Type) where
  store : Store α
  focus : Focus
  frames : List Waiting

namespace Machine

variable {α : Type} [Scalar α]

/-- The result of a call that need not be split. -/
def known? (s : Store α) (c : Call) : Option Nat :=
  (c.immediate? s.table).or s.memo[c.key]?

def step : Machine α → (Nat × Store α) ⊕ Machine α
  | ⟨s, .call c, frames⟩ =>
    match c.split s.table with
    | .value x =>
      let (d, table) := s.table.terminal x
      .inr ⟨{ s with table }, .result d, frames⟩
    | .cofactors level low high =>
      match known? s c with
      | some d => .inr ⟨s, .result d, frames⟩
      | none => .inr ⟨s, .call low, .low c.key level high :: frames⟩
  | ⟨s, .result d, .low key level next :: frames⟩ =>
    .inr ⟨s, .call next, .high key level d :: frames⟩
  | ⟨s, .result d, .high key level done :: frames⟩ =>
    let (d, table) := s.table.branch level done d
    .inr ⟨⟨table, s.memo.insert key d⟩, .result d, frames⟩
  | ⟨s, .result d, []⟩ => .inl (d, s)

/-- Bounds the steps that are left. -/
def weight (m : Machine α) : Nat := m.focus.weight + Waiting.weightAll m.frames

theorem weight_step {m m' : Machine α} (h : m.step = .inr m') : m'.weight < m.weight := by
  unfold step at h
  split at h
  next s c frames =>
    have hpos : 0 < Nat.pow 5 c.rank := Nat.pow_pos (by omega)
    split at h
    next => cases h; simp only [weight, Focus.weight]; omega
    next level low high hsplit =>
      split at h
      next => cases h; simp only [weight, Focus.weight]; omega
      next =>
        cases h
        have := five_pow_add_lt (Call.rank_lt_of_split hsplit).1 (Call.rank_lt_of_split hsplit).2
        simp only [weight, Focus.weight, Waiting.weightAll, Waiting.weight]
        omega
  next =>
    cases h
    simp only [weight, Focus.weight, Waiting.weightAll, Waiting.weight]
    omega
  next =>
    cases h
    simp only [weight, Focus.weight, Waiting.weightAll, Waiting.weight]
    omega
  next => cases h

def run (m : Machine α) : Nat × Store α :=
  match _h : m.step with
  | .inl result => result
  | .inr m => m.run
termination_by m.weight
decreasing_by exact weight_step _h

end Machine

namespace Store

variable {α : Type} [Scalar α]

def initial : Store α := ⟨Table.initial, ∅⟩

def constant (s : Store α) (x : α) : Nat × Store α :=
  let (d, table) := s.table.terminal x
  (d, { s with table })

def perform (s : Store α) (c : Call) : Nat × Store α := Machine.run ⟨s, .call c, []⟩

def perform? (s : Store α) (c : Call) : Option Nat × Store α :=
  if c.InRange s.table.size then
    let (d, s) := s.perform c
    (some d, s)
  else (none, s)

end Store

end DecisionDiagrams
