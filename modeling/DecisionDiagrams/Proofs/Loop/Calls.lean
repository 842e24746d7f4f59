import DecisionDiagrams.Proofs.Diagram.Manager
import DecisionDiagrams.Proofs.Loop.Basic

/-! The loop that carries out a call, with a stack of tasks and a stack of results. It is at the
same point as a machine whose frames hold both. In a closed store it neither reads a number out of
range nor misses a result. -/
namespace DecisionDiagrams

inductive Task where
  | expand (c : Call)
  /-- Decides a level by the last two results, and remembers the branch. -/
  | build (key : Call) (level : Nat)

structure CallLoop (α : Type) where
  store : Store α
  tasks : List Task
  results : List Nat

namespace CallLoop

variable {α : Type} [Scalar α]

def start (s : Store α) (c : Call) : CallLoop α := ⟨s, [.expand c], []⟩

def step : CallLoop α → (Except Panic Nat × Store α) ⊕ CallLoop α
  | ⟨s, .expand c :: tasks, results⟩ =>
    if c.InRange s.table.size then
      match c.split s.table with
      | .value x =>
        let (d, table) := s.table.terminal x
        .inr ⟨{ s with table }, tasks, d :: results⟩
      | .cofactors level low high =>
        match Machine.known? s c with
        | some d => .inr ⟨s, tasks, d :: results⟩
        | none => .inr ⟨s, .expand low :: .expand high :: .build c.key level :: tasks, results⟩
    else .inl (.error .outOfRange, s)
  | ⟨s, .build key level :: tasks, high :: low :: results⟩ =>
    match s.table.branch? level low high with
    | some (d, table) => .inr ⟨⟨table, s.memo.insert key d⟩, tasks, d :: results⟩
    | none => .inl (.error .outOfRange, s)
  | ⟨s, .build _ _ :: _, _⟩ => .inl (.error .exhausted, s)
  | ⟨s, [], d :: _⟩ => .inl (.ok d, s)
  | ⟨s, [], []⟩ => .inl (.error .exhausted, s)

end CallLoop

namespace Waiting

def tasks : List Waiting → List Task
  | [] => []
  | .low key level next :: frames => .expand next :: .build key level :: tasks frames
  | .high key level _ :: frames => .build key level :: tasks frames

def results : List Waiting → List Nat
  | [] => []
  | .low _ _ _ :: frames => results frames
  | .high _ _ done :: frames => done :: results frames

def InRange (size : Nat) : Waiting → Prop
  | .low _ _ next => next.InRange size
  | .high _ _ done => done < size

theorem InRange.mono {size size' : Nat} (hle : size ≤ size') {frame : Waiting}
    (h : frame.InRange size) : frame.InRange size' := by
  cases frame with
  | low key level next => exact Call.InRange.mono h hle
  | high key level done => exact h.trans_le hle

end Waiting

def Focus.InRange (size : Nat) : Focus → Prop
  | .call c => c.InRange size
  | .result d => d < size

namespace Machine

variable {α : Type} [Scalar α] {m m' : Machine α}

/-- The loop that is at the same point as a machine. -/
def loop : Machine α → CallLoop α
  | ⟨s, .call c, frames⟩ => ⟨s, .expand c :: Waiting.tasks frames, Waiting.results frames⟩
  | ⟨s, .result d, frames⟩ => ⟨s, Waiting.tasks frames, d :: Waiting.results frames⟩

structure InRange (m : Machine α) : Prop where
  closed : m.store.Closed
  focus : m.focus.InRange m.store.table.size
  frames : ∀ frame ∈ m.frames, frame.InRange m.store.table.size

theorem immediate?_lt {t : Table α} (ht : t.Closed) {c : Call} (hc : c.InRange t.size) {d : Nat}
    (h : c.immediate? t = some d) : d < t.size := by
  have hone := ht.one_lt_size
  cases c with
  | unary op f => cases h
  | binary op f g =>
    obtain ⟨hf, hg⟩ := hc
    simp only [Call.immediate?] at h
    split at h
    next => cases h
    next b _ =>
      have hdecided : (if b then Table.one else Table.zero) < t.size := by
        cases b
        · exact Nat.zero_lt_one.trans hone
        · exact hone
      generalize (if b then Table.one else Table.zero) = decided at h hdecided
      generalize (if b then Table.zero else Table.one) = neutral at h
      split at h
      next => cases h; exact hdecided
      split at h
      next => cases h; exact hf
      split at h
      next => cases h; exact hg
      split at h
      next => cases h; exact hf
      next => cases h

theorem known?_lt {s : Store α} (hs : s.Closed) {c : Call} (hc : c.InRange s.table.size) {d : Nat}
    (h : known? s c = some d) : d < s.table.size := by
  rcases Option.or_eq_some_iff.mp h with h | ⟨-, h⟩
  · exact immediate?_lt hs.table hc h
  · exact hs.memo h

theorem inRange_of_split {t : Table α} {c low high : Call} {level size : Nat}
    (hc : c.InRange size) (h : c.split t = .cofactors level low high) :
    low.InRange size ∧ high.InRange size := by
  rw [c.split_eq t] at h
  split at h
  next => cases h
  next => cases h; exact ⟨hc.cofactor _ _, hc.cofactor _ _⟩

section Step

variable {s : Store α} {frames : List Waiting}

theorem InRange.step_call {c : Call} (hm : InRange ⟨s, .call c, frames⟩)
    (h : Machine.step ⟨s, .call c, frames⟩ = .inr m') :
    m'.InRange ∧ CallLoop.step (loop ⟨s, .call c, frames⟩) = .inr m'.loop := by
  obtain ⟨hclosed, hfocus, hframes⟩ := hm
  have hc : c.InRange s.table.size := hfocus
  cases hsplit : c.split s.table with
  | value x =>
    simp only [Machine.step, hsplit] at h
    cases h
    obtain ⟨hlt, ht⟩ := hclosed.table.terminal x
    have hgrows := s.table.grows_insert (.terminal (Scalar.canonical x)) trivial
    refine ⟨⟨hclosed.with_table ht hgrows, hlt, fun frame hframe => ?_⟩, ?_⟩
    · exact (hframes frame hframe).mono hgrows.size_le
    · simp only [loop, CallLoop.step, if_pos hc, hsplit]
  | cofactors level low high =>
    cases hknown : known? s c with
    | some d =>
      simp only [Machine.step, hsplit, hknown] at h
      cases h
      refine ⟨⟨hclosed, known?_lt hclosed hc hknown, hframes⟩, ?_⟩
      simp only [loop, CallLoop.step, if_pos hc, hsplit, hknown]
    | none =>
      simp only [Machine.step, hsplit, hknown] at h
      cases h
      obtain ⟨hlow, hhigh⟩ := inRange_of_split hc hsplit
      refine ⟨⟨hclosed, hlow, List.forall_mem_cons.mpr ⟨hhigh, hframes⟩⟩, ?_⟩
      simp only [loop, CallLoop.step, if_pos hc, hsplit, hknown, Waiting.tasks, Waiting.results]

/-- The low result is on the stack of results under the high one. -/
theorem InRange.step_build {key : Call} {level done d : Nat}
    (hm : InRange ⟨s, .result d, .high key level done :: frames⟩)
    (h : Machine.step ⟨s, .result d, .high key level done :: frames⟩ = .inr m') :
    m'.InRange ∧
      CallLoop.step (loop ⟨s, .result d, .high key level done :: frames⟩) = .inr m'.loop := by
  obtain ⟨hclosed, hfocus, hframes⟩ := hm
  obtain ⟨hframe, hrest⟩ := List.forall_mem_cons.mp hframes
  have hdone : done < s.table.size := hframe
  have hd : d < s.table.size := hfocus
  obtain rfl : ⟨⟨(s.table.branch level done d).2,
    s.memo.insert key (s.table.branch level done d).1⟩,
    .result (s.table.branch level done d).1, frames⟩ = m' := Sum.inr.inj h
  obtain ⟨hlt, ht⟩ := hclosed.table.branch level hdone d
  have hgrows := s.table.grows_branch level done d
  have hstore := (hclosed.with_table ht hgrows).remember key hlt
  refine ⟨⟨hstore, hlt, fun frame hmem => (hrest frame hmem).mono hgrows.size_le⟩, ?_⟩
  simp only [loop, CallLoop.step, Waiting.tasks, Waiting.results, Table.branch?_eq hdone hd]

end Step

/-- A step of the machine is a step of the loop or none, and what is in range stays in range. -/
theorem InRange.step (hm : m.InRange) (h : m.step = .inr m') :
    m'.InRange ∧ (m'.loop = m.loop ∨ m.loop.step = .inr m'.loop) := by
  obtain ⟨s, focus, frames⟩ := m
  cases focus with
  | call c =>
    obtain ⟨hm', hloop⟩ := hm.step_call h
    exact ⟨hm', .inr hloop⟩
  | result d =>
    cases frames with
    | nil => cases h
    | cons frame frames =>
      cases frame with
      | low key level next =>
        -- The loop has put the result on its stack already, and the next task is on top.
        obtain ⟨hframe, hrest⟩ := List.forall_mem_cons.mp hm.frames
        cases h
        exact ⟨⟨hm.closed, hframe, List.forall_mem_cons.mpr ⟨hm.focus, hrest⟩⟩, .inl rfl⟩
      | high key level done =>
        obtain ⟨hm', hloop⟩ := hm.step_build h
        exact ⟨hm', .inr hloop⟩

theorem InRange.stop (hm : m.InRange) {d : Nat} {s : Store α} (h : m.step = .inl (d, s)) :
    m.loop.step = .inl (.ok d, s) ∧ d < s.table.size := by
  obtain ⟨s', focus, frames⟩ := m
  cases focus with
  | call c =>
    simp only [Machine.step] at h
    split at h
    next => cases h
    next => split at h <;> cases h
  | result d' =>
    cases frames with
    | nil => cases h; exact ⟨rfl, hm.focus⟩
    | cons frame frames => cases frame <;> cases h

/-- The loop ends as the machine does. -/
theorem InRange.ends (hm : m.InRange) :
    Ends CallLoop.step m.loop (.ok m.run.1, m.run.2) ∧ m.run.1 < m.run.2.table.size := by
  induction hweight : m.weight using Nat.strongRecOn generalizing m with
  | ind weight ih =>
    cases hstep : m.step with
    | inl r =>
      obtain ⟨hloop, hlt⟩ := hm.stop hstep
      rw [run_of_done hstep]
      exact ⟨.stop hloop, hlt⟩
    | inr m' =>
      obtain ⟨hm', hloop⟩ := hm.step hstep
      obtain ⟨hends, hlt⟩ := ih m'.weight (hweight ▸ weight_step hstep) hm' rfl
      rw [run_of_step hstep]
      refine ⟨?_, hlt⟩
      rcases hloop with hloop | hloop
      · rwa [← hloop]
      · exact .next hloop hends

end Machine

namespace Store

variable {α : Type} [Scalar α] {s : Store α} {c : Call}

theorem Closed.ends_perform (hs : s.Closed) (hc : c.InRange s.table.size) :
    Ends CallLoop.step (.start s c) (.ok (s.perform c).1, (s.perform c).2) ∧
      (s.perform c).1 < (s.perform c).2.table.size := by
  have hstart : Machine.InRange ⟨s, .call c, []⟩ := ⟨hs, hc, by simp⟩
  exact hstart.ends

/-- The loop for a call panics at once if an operand is out of range, and has a result otherwise. -/
theorem Closed.ends_perform? (hs : s.Closed) (c : Call) :
    Ends CallLoop.step (.start s c) (Panic.answer (s.perform? c).1, (s.perform? c).2) := by
  by_cases hc : c.InRange s.table.size
  · rw [perform?_of_inRange hc]
    exact (hs.ends_perform hc).1
  · rw [perform?_of_not_inRange hc]
    exact .stop (if_neg hc)

end Store

end DecisionDiagrams
