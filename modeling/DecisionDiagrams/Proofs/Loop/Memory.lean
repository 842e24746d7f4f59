import DecisionDiagrams.Proofs.Diagram.Parts
import DecisionDiagrams.Proofs.Loop.Calls

/-! The memory of the loop for a call. A call is split only if it is not remembered, and while its
halves are under way nothing can be remembered under its key, because all calls inside have a
smaller rank. So a key is put into the memory only once, and every new key is that of a part of the
call. -/
namespace DecisionDiagrams

namespace Task

def rank : Task → Nat
  | expand c => c.rank
  | build key _ => key.rank

/-- The keys under which branches remain to be remembered. -/
def keys : List Task → List Call
  | [] => []
  | expand _ :: tasks => keys tasks
  | build key _ :: tasks => key :: keys tasks

/-- Every branch that remains to be remembered is for a call of a greater rank than those of all
tasks before it. -/
def Ascending : List Task → Prop
  | [] => True
  | task :: tasks => (∀ key ∈ keys tasks, task.rank < key.rank) ∧ Ascending tasks

end Task

theorem Call.rank_key (c : Call) : c.key.rank = c.rank := by
  cases c with
  | unary op f => rfl
  | binary op f g =>
    by_cases h : op.isCommutative ∧ g < f
    · rw [key, if_pos h]
      exact Nat.add_comm g f
    · rw [key, if_neg h]

theorem Call.split_grows {α : Type} [Scalar α] {t t' : Table α} {c : Call} (h : t.Grows t')
    (hc : c.InRange t.size) : c.split t' = c.split t := by
  rw [split_eq, split_eq, level?_grows h hc, compute_grows h hc]
  simp only [cofactor_grows h hc]

theorem Table.grows_of_branch? {α : Type} [Scalar α] {t t' : Table α} {level low high d : Nat}
    (h : t.branch? level low high = some (d, t')) : t.Grows t' := by
  unfold branch? at h
  split at h
  next => cases h; exact .refl t
  split at h
  next => cases h; exact .refl t
  split at h
  next => cases h; exact t.grows_push _ _
  next => cases h

namespace CallLoop

variable {α : Type} [Scalar α]

/-- The key of the call that the next step splits. -/
def splitting? : CallLoop α → Option Call
  | ⟨s, .expand c :: _, _⟩ =>
    match c.split s.table with
    | .value _ => none
    | .cofactors _ _ _ => if Machine.known? s c = none then some c.key else none
  | _ => none

inductive Step : CallLoop α → Option Call → CallLoop α → Prop where
  | answer {s : Store α} (c : Call) (tasks : List Task) (results : List Nat) {t : Table α} (d : Nat)
      (hgrows : s.table.Grows t) :
      Step ⟨s, .expand c :: tasks, results⟩ none ⟨{ s with table := t }, tasks, d :: results⟩
  | split {s : Store α} {c low high : Call} {level : Nat} (tasks : List Task) (results : List Nat)
      (hsplit : c.split s.table = .cofactors level low high) (hnew : c.key ∉ s.memo) :
      Step ⟨s, .expand c :: tasks, results⟩ (some c.key)
        ⟨s, .expand low :: .expand high :: .build c.key level :: tasks, results⟩
  | build {s : Store α} (key : Call) (level low high : Nat) (tasks : List Task)
      (results : List Nat) {t : Table α} (d : Nat) (hgrows : s.table.Grows t) :
      Step ⟨s, .build key level :: tasks, high :: low :: results⟩ none
        ⟨⟨t, s.memo.insert key d⟩, tasks, d :: results⟩

variable {l l' : CallLoop α} {event : Option Call}

theorem step_of_eq (h : step l = .inr l') : Step l l.splitting? l' := by
  unfold step at h
  split at h
  next s c tasks results =>
    split at h
    next hc =>
      cases hsplit : c.split s.table with
      | value x =>
        simp only [hsplit, Sum.inr.injEq] at h
        subst h
        simp only [splitting?, hsplit]
        exact .answer c tasks results _ (s.table.grows_insert _ _)
      | cofactors level low high =>
        cases hknown : Machine.known? s c with
        | some d =>
          simp only [hsplit, hknown, Sum.inr.injEq] at h
          subst h
          simp only [splitting?, hsplit, hknown]
          exact .answer c tasks results d (.refl s.table)
        | none =>
          simp only [hsplit, hknown, Sum.inr.injEq] at h
          subst h
          simp only [splitting?, hsplit, hknown]
          refine .split tasks results hsplit fun hmem => ?_
          rw [Std.HashMap.mem_iff_isSome_getElem?, (Option.or_eq_none_iff.mp hknown).2] at hmem
          cases hmem
    next => cases h
  next s key level tasks high low results =>
    split at h
    next d t hbranch =>
      cases h
      exact .build key level low high tasks results d (Table.grows_of_branch? hbranch)
    next => cases h
  next => cases h
  next => cases h
  next => cases h

/-- At the end the store is what it is, also after a panic, and there is a result only when no task
is left. -/
theorem stop_of_eq {outcome : Except Panic Nat × Store α} (h : step l = .inl outcome) :
    l.store = outcome.2 ∧ ∀ d, outcome.1 = .ok d → l.tasks = [] := by
  unfold step at h
  split at h
  next =>
    split at h
    next =>
      split at h
      next => cases h
      next => split at h <;> cases h
    next => cases h; exact ⟨rfl, by simp⟩
  next => split at h <;> cases h; exact ⟨rfl, by simp⟩
  next => cases h; exact ⟨rfl, by simp⟩
  next => cases h; exact ⟨rfl, by simp⟩
  next => cases h; exact ⟨rfl, by simp⟩

/-- Something is remembered under the key, or will be when a branch is built. -/
def Holds (l : CallLoop α) (key : Call) : Prop := key ∈ l.store.memo ∨ key ∈ Task.keys l.tasks

theorem Step.holds_iff (h : Step l event l') (key : Call) :
    l'.Holds key ↔ l.Holds key ∨ key ∈ event := by
  cases h with
  | answer => simp [Holds, Task.keys]
  | split tasks results hsplit hnew =>
    simp only [Holds, Task.keys, List.mem_cons, Option.mem_def, Option.some.injEq,
      eq_comm (a := key)]
    tauto
  | build key' level low high tasks results d hgrows =>
    simp only [Holds, Task.keys, List.mem_cons, Std.HashMap.mem_insert, beq_iff_eq,
      eq_comm (a := key), Option.mem_def, reduceCtorEq, or_false]
    tauto

structure Fresh (l : CallLoop α) : Prop where
  new {key : Call} : key ∈ Task.keys l.tasks → key ∉ l.store.memo
  ascending : Task.Ascending l.tasks

omit [Scalar α] in
theorem start_fresh (s : Store α) (c : Call) : (start s c).Fresh where
  new h := by cases h
  ascending := ⟨by simp [Task.keys], trivial⟩

theorem Fresh.step (hl : l.Fresh) (h : Step l event l') : l'.Fresh := by
  obtain ⟨hnew, hascending⟩ := hl
  cases h with
  | answer c tasks results d hgrows => exact ⟨hnew, hascending.2⟩
  | @split s c low high level tasks results hsplit hsplitNew =>
    obtain ⟨hwaiting, htasks⟩ := hascending
    obtain ⟨hlow, hhigh⟩ := Call.rank_lt_of_split hsplit
    -- The halves have a smaller rank than the call, and the call a smaller one than all that wait.
    have hkeys {rank : Nat} (hrank : rank < c.rank) :
        ∀ key ∈ c.key :: Task.keys tasks, rank < key.rank := by
      refine List.forall_mem_cons.mpr ⟨?_, fun key hkey => hrank.trans (hwaiting key hkey)⟩
      rwa [Call.rank_key]
    refine ⟨fun hkey => ?_, hkeys hlow, hkeys hhigh, fun key hkey => ?_, htasks⟩
    · rcases List.mem_cons.mp hkey with rfl | hkey
      · exact hsplitNew
      · exact hnew hkey
    · rw [Task.rank, Call.rank_key]
      exact hwaiting key hkey
  | build key level low high tasks results d hgrows =>
    obtain ⟨hwaiting, htasks⟩ := hascending
    refine ⟨fun {key'} hkey => ?_, htasks⟩
    have hne : key ≠ key' := fun heq => (hwaiting key' hkey).ne (congrArg Call.rank heq)
    have hold := hnew (List.mem_cons_of_mem key hkey)
    simpa [Std.HashMap.mem_insert, hne] using hold

/-- A call that is split is neither remembered nor under way. -/
theorem Fresh.not_holds (hl : l.Fresh) (h : Step l event l') : ∀ key ∈ event, ¬l.Holds key := by
  intro key hkey
  cases h with
  | answer => cases hkey
  | split tasks results hsplit hnew =>
    cases hkey
    rintro (hmemo | hwaiting)
    · exact hnew hmemo
    · have hlt := hl.ascending.1 _ hwaiting
      rw [Call.rank_key] at hlt
      exact hlt.false
  | build => cases hkey

/-- The loop for a call in a store: it is at parts of the call, and holds only what the store
remembers and keys of parts. -/
structure Within (s : Store α) (c : Call) (l : CallLoop α) : Prop where
  grows : s.table.Grows l.store.table
  parts {p : Call} : .expand p ∈ l.tasks → p ∈ c.parts s.table
  held {key : Call} : l.Holds key → key ∈ s.memo ∨ key ∈ (c.parts s.table).image Call.key

theorem start_within (s : Store α) (c : Call) : Within s c (start s c) where
  grows := .refl s.table
  parts {p} h := by
    cases List.mem_singleton.mp h
    exact c.self_mem_parts s.table
  held h := .inl (h.resolve_right List.not_mem_nil)

theorem Within.step {s : Store α} {c : Call} (hc : c.InRange s.table.size) (hl : Within s c l)
    (h : Step l event l') : Within s c l' := by
  have hholds := h.holds_iff
  obtain ⟨hgrows, hparts, hheld⟩ := hl
  cases h with
  | answer p tasks results d hgrows' =>
    refine ⟨hgrows.trans hgrows', fun hp => hparts (List.mem_cons_of_mem _ hp), fun hkey => ?_⟩
    exact hheld (((hholds _).mp hkey).resolve_right (by simp))
  | @split s' p low high level tasks results hsplit hnew =>
    have hp := hparts List.mem_cons_self
    have hrange := hc.of_mem_parts hp
    rw [Call.split_grows hgrows hrange, Call.split_eq] at hsplit
    split at hsplit
    next => cases hsplit
    next level' hlevel =>
      cases hsplit
      have hhalf (side : Bool) := Call.parts_subset hp (p.cofactor_mem_parts s.table level side)
      refine ⟨hgrows, fun {q} hq => ?_, fun {key} hkey => ?_⟩
      · simp only [List.mem_cons, Task.expand.injEq, reduceCtorEq, false_or] at hq
        rcases hq with rfl | rfl | hq
        · exact hhalf false
        · exact hhalf true
        · exact hparts (List.mem_cons_of_mem _ hq)
      · rcases (hholds key).mp hkey with hkey | hkey
        · exact hheld hkey
        · cases hkey
          exact .inr (Finset.mem_image_of_mem _ hp)
  | build key level low high tasks results d hgrows' =>
    refine ⟨hgrows.trans hgrows', fun hp => hparts (List.mem_cons_of_mem _ hp), fun hkey => ?_⟩
    exact hheld (((hholds _).mp hkey).resolve_right (by simp))

end CallLoop

namespace Store

variable {α : Type} [Scalar α] {s s' : Store α} {c : Call}

omit [Scalar α] in
/-- What is remembered later is no more than what was remembered before and the new keys. -/
theorem size_memo_le {keys : Finset Call} (h : ∀ key ∈ s'.memo, key ∈ s.memo ∨ key ∈ keys) :
    s'.memo.size ≤ s.memo.size + keys.card := by
  have hcard (memo : Std.HashMap Call Nat) : memo.keys.toFinset.card = memo.size := by
    rw [List.toFinset_card_of_nodup Std.HashMap.nodup_keys, Std.HashMap.length_keys]
  have hsubset : s'.memo.keys.toFinset ⊆ s.memo.keys.toFinset ∪ keys := by
    intro key hkey
    simp only [Finset.mem_union, List.mem_toFinset, Std.HashMap.mem_keys] at hkey ⊢
    exact h key hkey
  rw [← hcard, ← hcard]
  exact (Finset.card_le_card hsubset).trans (Finset.card_union_le _ _)

/-- A call adds at most one result to the memory for each of its parts. -/
theorem Closed.size_memo_perform_le (hs : s.Closed) (hc : c.InRange s.table.size) :
    (s.perform c).2.memo.size ≤ s.memo.size + c.sizeProduct s.table := by
  obtain ⟨l, hl, hstop⟩ := (hs.ends_perform hc).1.exists_stop (CallLoop.start_within s c)
    fun l l' hl h => hl.step hc (CallLoop.step_of_eq h)
  obtain ⟨hstore, -⟩ := CallLoop.stop_of_eq hstop
  have hmemo := size_memo_le fun key hkey => hl.held (.inl hkey)
  rw [hstore] at hmemo
  have hparts := (Finset.card_image_le (s := c.parts s.table) (f := Call.key)).trans
    (c.card_parts_le s.table)
  exact hmemo.trans (Nat.add_le_add_left hparts _)

end Store

end DecisionDiagrams
