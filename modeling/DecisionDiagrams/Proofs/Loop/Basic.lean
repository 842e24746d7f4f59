import DecisionDiagrams.Proofs.Diagram.Store

/-! Loops that check what they read. A loop goes on from state to state until its body ends it, and
it panics where it reads a number that is not in the table, or takes a result that is not there. -/
namespace DecisionDiagrams

inductive Panic where
  /-- A number is read that is not in the table. -/
  | outOfRange
  /-- A result is taken from a stack that is empty. -/
  | exhausted
  deriving DecidableEq, Repr

/-- The answer of a loop that panics where there is no answer because a number is out of range. -/
def Panic.answer {β : Type} : Option β → Except Panic β
  | some x => .ok x
  | none => .error outOfRange

inductive Ends {σ ρ : Type} (step : σ → ρ ⊕ σ) : σ → ρ → Prop where
  | stop {s : σ} {r : ρ} (h : step s = .inl r) : Ends step s r
  | next {s s' : σ} {r : ρ} (h : step s = .inr s') (hends : Ends step s' r) : Ends step s r

namespace Ends

variable {σ ρ : Type} {step : σ → ρ ⊕ σ} {s : σ} {r r' : ρ}

theorem unique (h : Ends step s r) (h' : Ends step s r') : r = r' := by
  induction h with
  | stop h =>
    cases h' with
    | stop h' => exact Sum.inl.inj (h.symm.trans h')
    | next h' _ => cases h.symm.trans h'
  | next h _ ih =>
    cases h' with
    | stop h' => cases h.symm.trans h'
    | next h' hends' => cases h.symm.trans h'; exact ih hends'

/-- A loop ends with one result. -/
theorem iff_eq (h : Ends step s r) : Ends step s r' ↔ r' = r :=
  ⟨fun h' => h'.unique h, fun heq => heq ▸ h⟩

theorem of_step {s' : σ} (h : Ends step s r) (hstep : step s = .inr s') : Ends step s' r := by
  cases h with
  | stop h => cases h.symm.trans hstep
  | next h hends => cases h.symm.trans hstep; exact hends

/-- What holds at the start and is kept by every step holds when the loop ends. -/
theorem exists_stop {Valid : σ → Prop} (h : Ends step s r) (hs : Valid s)
    (hstep : ∀ s s', Valid s → step s = .inr s' → Valid s') : ∃ s, Valid s ∧ step s = .inl r := by
  induction h with
  | @stop s r h => exact ⟨s, hs, h⟩
  | next h _ ih => exact ih (hstep _ _ hs h)

end Ends

inductive Trace {σ ρ ε : Type} (step : σ → ρ ⊕ σ) (event? : σ → Option ε) :
    σ → List ε → ρ → Prop where
  | stop {s : σ} {r : ρ} (h : step s = .inl r) : Trace step event? s [] r
  | next {s s' : σ} {events : List ε} {r : ρ} (h : step s = .inr s')
      (htrace : Trace step event? s' events r) :
      Trace step event? s ((event? s).toList ++ events) r

section Trace

variable {σ ρ ε : Type} {step : σ → ρ ⊕ σ} {event? : σ → Option ε} {s : σ} {events events' : List ε}
  {r r' : ρ}

theorem Ends.exists_trace (h : Ends step s r) (event? : σ → Option ε) :
    ∃ events, Trace step event? s events r := by
  induction h with
  | stop h => exact ⟨[], .stop h⟩
  | next h _ ih =>
    obtain ⟨events, htrace⟩ := ih
    exact ⟨_, .next h htrace⟩

theorem Trace.unique (h : Trace step event? s events r) (h' : Trace step event? s events' r') :
    events = events' := by
  induction h generalizing events' with
  | stop h =>
    cases h' with
    | stop _ => rfl
    | next h' _ => cases h.symm.trans h'
  | next h _ ih =>
    cases h' with
    | stop h' => cases h.symm.trans h'
    | next h' htrace => cases h.symm.trans h'; rw [ih htrace]

/-- A loop whose states hold things: a step adds its event, which was not held before, and what is
held at the end is in the result. -/
structure Remembers (step : σ → ρ ⊕ σ) (event? : σ → Option ε) (Valid : σ → Prop)
    (Holds : σ → ε → Prop) (Held : ρ → ε → Prop) : Prop where
  valid {s s' : σ} : Valid s → step s = .inr s' → Valid s'
  holds_iff {s s' : σ} : Valid s → step s = .inr s' → ∀ e, Holds s' e ↔ Holds s e ∨ e ∈ event? s
  fresh {s s' : σ} : Valid s → step s = .inr s' → ∀ e ∈ event? s, ¬Holds s e
  stop {s : σ} {r : ρ} : Valid s → step s = .inl r → ∀ e, Held r e ↔ Holds s e

variable {Valid : σ → Prop} {Holds : σ → ε → Prop} {Held : ρ → ε → Prop}

/-- Such a loop meets no event twice, and holds in the end what it held and the events. -/
theorem Remembers.trace (hloop : Remembers step event? Valid Holds Held) (hs : Valid s)
    (h : Trace step event? s events r) :
    events.Nodup ∧ (∀ e ∈ events, ¬Holds s e) ∧ ∀ e, Held r e ↔ Holds s e ∨ e ∈ events := by
  induction h with
  | stop h => exact ⟨.nil, by simp, fun e => by simp [hloop.stop hs h]⟩
  | @next s s' events r h _ ih =>
    obtain ⟨hnodup, hnew, hheld⟩ := ih (hloop.valid hs h)
    have hholds := hloop.holds_iff hs h
    have hfresh := hloop.fresh hs h
    have hlater (e : ε) (he : e ∈ events) : ¬Holds s e ∧ e ∉ event? s := by
      rw [← not_or, ← hholds]
      exact hnew e he
    refine ⟨?_, ?_, ?_⟩
    · refine List.nodup_append.mpr ⟨?_, hnodup, ?_⟩
      · cases event? s <;> simp
      · rintro e he e' he' rfl
        exact (hlater e he').2 (Option.mem_toList.mp he)
    · intro e he
      rcases List.mem_append.mp he with he | he
      · exact hfresh e (Option.mem_toList.mp he)
      · exact (hlater e he).1
    · intro e
      rw [hheld, hholds, List.mem_append, Option.mem_toList, Option.mem_def, or_assoc]

end Trace

namespace Table

section Read

variable {α : Type} {t : Table α}

def read? (t : Table α) (d : Nat) : Option (Node α) := t.cells[d]?.map Cell.node

theorem read?_of_lt [Scalar α] {d : Nat} (hd : d < t.size) : t.read? d = some (t.node d) := by
  simp [read?, node, Array.getElem?_eq_getElem hd]

theorem read?_of_not_lt {d : Nat} (hd : ¬d < t.size) : t.read? d = none := by
  simpa [read?, size] using hd

end Read

variable {α : Type} [Scalar α] {t : Table α}

/-- The diagram that decides a level, unless a new branch would have a child that is not in the
table. -/
def branch? (t : Table α) (level low high : Nat) : Option (Nat × Table α) :=
  if low = high then some (low, t)
  else
    match t.numbers[(Node.branch level low high : Node α).key]? with
    | some d => some (d, t)
    | none =>
      if h : low < t.size ∧ high < t.size then some (t.size, t.push (.branch level low high) h)
      else none

theorem branch?_eq {level low high : Nat} (hlow : low < t.size) (hhigh : high < t.size) :
    t.branch? level low high = some (t.branch level low high) := by
  by_cases heq : low = high
  · subst heq
    rw [branch?, if_pos rfl, branch_self]
  · have hboth : low < t.size ∧ high < t.size := ⟨hlow, hhigh⟩
    have hbranch : low ≠ high ∧ low < t.size ∧ high < t.size := ⟨heq, hboth⟩
    rw [branch?, if_neg heq, Table.branch, dif_pos hbranch]
    unfold Table.insert
    cases t.numbers[(Node.branch level low high : Node α).key]? with
    | some d => rfl
    | none => simp only [dif_pos hboth]

structure Closed {α : Type} (t : Table α) : Prop where
  one_lt_size : 1 < t.size
  numbers {k : NodeKey} {d : Nat} : t.numbers[k]? = some d → d < t.size

theorem WellFormed.closed {levels : Nat} (ht : t.WellFormed levels) : t.Closed where
  one_lt_size := ht.one_lt_size
  numbers h := ((ht.getElem?_numbers _ _).mp h).1

namespace Closed

theorem insert (ht : t.Closed) (n : Node α) (h : n.Below t.size) :
    (t.insert n h).1 < (t.insert n h).2.size ∧ (t.insert n h).2.Closed := by
  unfold Table.insert
  split
  next d hd => exact ⟨ht.numbers hd, ht⟩
  next =>
    refine ⟨by simp, by have := ht.one_lt_size; simp; omega, fun {k d} hk => ?_⟩
    rw [getElem?_numbers_push] at hk
    rw [size_push]
    split at hk
    next => cases hk; exact Nat.lt_succ_self _
    next => exact Nat.lt_succ_of_lt (ht.numbers hk)

theorem terminal (ht : t.Closed) (x : α) :
    (t.terminal x).1 < (t.terminal x).2.size ∧ (t.terminal x).2.Closed := ht.insert _ _

theorem branch (ht : t.Closed) (level : Nat) {low : Nat} (hlow : low < t.size) (high : Nat) :
    (t.branch level low high).1 < (t.branch level low high).2.size ∧
      (t.branch level low high).2.Closed := by
  unfold Table.branch
  split
  next => exact ht.insert _ _
  next => exact ⟨hlow, ht⟩

end Closed

end Table

namespace Store

variable {α : Type} {s : Store α}

structure Closed (s : Store α) : Prop where
  table : s.table.Closed
  memo {c : Call} {d : Nat} : s.memo[c]? = some d → d < s.table.size

theorem WellFormed.closed [Scalar α] {levels : Nat} (hs : s.WellFormed levels) : s.Closed where
  table := hs.table.closed
  memo h := (hs.memo h).2.lt_size

theorem Closed.with_table (hs : s.Closed) {t : Table α} (ht : t.Closed)
    (hgrows : s.table.Grows t) : Closed { s with table := t } where
  table := ht
  memo h := hgrows.lt (hs.memo h)

theorem Closed.remember (hs : s.Closed) (key : Call) {d : Nat} (hd : d < s.table.size) :
    Closed { s with memo := s.memo.insert key d } where
  table := hs.table
  memo {c d'} h := by
    rw [Std.HashMap.getElem?_insert] at h
    split at h
    next => cases h; exact hd
    next => exact hs.memo h

end Store

end DecisionDiagrams
