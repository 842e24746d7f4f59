import DecisionDiagrams.Proofs.History.Permanence
import DecisionDiagrams.Proofs.Loop.Splitting
import DecisionDiagrams.Proofs.Scalar.Sign

/-! Operations are economical. What an operation adds to a manager is bounded by the product of the
sizes of its operands, and as long as the manager is not cleared no call is split twice. -/
namespace DecisionDiagrams

open Scalar

/-- Negation changes the terminals of a diagram only. -/
theorem Table.WellFormed.nodeCount_negate {α : Type} [Scalar α] [LawfulScalar α] {levels : Nat}
    {t : Table α} (hnegate : NegatesBack α) (ht : t.WellFormed levels) {f d : Nat}
    (hf : f < t.size) (h : t.Settled (.unary .negate f) d) : t.nodeCount d = t.nodeCount f := by
  apply Nat.le_antisymm
  · exact h.nodeCount_le ht
  -- The negative of the result is the operand again, so that its nodes are results of parts too.
  have hd : Call.InRange t.size (.unary .negate d) := h.lt_size
  have hback := ht.expand hd
  have hgrows := hback.grows
  have heq : (t.expand (.unary .negate d)).1 = f := by
    refine (hback.wellFormed.eq_iff_same hback.settled.lt_size (hgrows.lt hf)).mpr fun a => ?_
    rw [hback.settled.value, hgrows.value a.truth hf]
    refine (same_canonical _).trans (.trans (LawfulScalar.negate_congr ?_) (hnegate _))
    rw [hgrows.value a.truth h.lt_size, h.value]
    exact same_canonical _
  have hle := hback.settled.nodeCount_le hback.wellFormed
  rw [heq, Call.sizeProduct_grows hgrows hd, hgrows.nodeCount hf] at hle
  exact hle

namespace Manager

structure Run (α : Type) where
  bindings : Bindings
  vocabulary : Vocabulary
  start : TreeLoop α

variable {α : Type} [Scalar α] {m m' m'' : Manager α}

def Run.step (run : Run α) :
    TreeLoop α → (Except Panic (Except CompileError Nat) × Store α) ⊕ TreeLoop α :=
  TreeLoop.step run.bindings run.vocabulary

def callRun (m : Manager α) (c : Call) : Run α := ⟨∅, .full, .within (.start m.store c) [] []⟩

def exprRun? (m : Manager α) (e : Expr α) (naming : Naming) : Option (Run α) :=
  match m.resolve e.names naming with
  | (.error _, _) => none
  | (.ok bindings, m') => some ⟨bindings, naming.vocabulary, .start m'.store e⟩

def textRun? (m : Manager α) (text : String) (naming : Naming) : Option (Run α) :=
  match parse text with
  | .error _ => none
  | .ok e => m.exprRun? e naming

/-- The loop that a request runs, unless it has no call to carry out. -/
def run? (m : Manager α) : Request α → Option (Run α)
  | .combine op f g => some (m.callRun (.binary op f g))
  | .negate f => some (m.callRun (.unary .negate f))
  | .complement f => some (m.callRun (.unary .complement f))
  | .evaluate bindings vocabulary e => some ⟨bindings, vocabulary, .start m.store e⟩
  | .compileExpr e naming => m.exprRun? e naming
  | .compile text naming => m.textRun? text naming
  | .solve text given => m.textRun? text (.interpretation given)
  | .solveConstant text => m.textRun? text (.interpretation ∅)
  | .encode text => m.textRun? text .encoding
  | .constant _ | .indicator _ | .resolve _ _ | .clear => none

/-- A request splits the calls with these keys, in this order. -/
def Splits (m : Manager α) (r : Request α) (keys : List Call) : Prop :=
  match m.run? r with
  | none => keys = []
  | some run => ∃ outcome, Trace run.step TreeLoop.splitting? run.start keys outcome

def SplitsAll (m : Manager α) : List (Request α) → List Call → Prop
  | [], keys => keys = []
  | r :: requests, keys => ∃ first rest, m.Splits r first ∧ (m.after r).SplitsAll requests rest ∧
      keys = first ++ rest

structure NewKeys (m m' : Manager α) (keys : List Call) : Prop where
  nodup : keys.Nodup
  new {key : Call} : key ∈ keys → key ∉ m.store.memo
  remembered (key : Call) : key ∈ m'.store.memo ↔ key ∈ m.store.memo ∨ key ∈ keys

structure GrowsBy (m m' : Manager α) (n : Nat) : Prop where
  nodes : m'.nodeCount ≤ m.nodeCount + n
  memo : m'.store.memo.size ≤ m.store.memo.size + n

structure Economical (m : Manager α) : Prop where
  combine (op : BinaryOp) {f g sizeF sizeG : Nat} : m.size? f = some sizeF →
    m.size? g = some sizeG → ∃ d m' size, m.combine op f g = (some d, m') ∧
      m.GrowsBy m' (sizeF * sizeG) ∧ m'.size? d = some size ∧ size ≤ sizeF * sizeG
  negate {f sizeF : Nat} : m.size? f = some sizeF → ∃ d m' size, m.negate f = (some d, m') ∧
    m.GrowsBy m' sizeF ∧ m'.size? d = some size ∧ size ≤ sizeF ∧ (NegatesBack α → size = sizeF)
  complement {f sizeF : Nat} : m.size? f = some sizeF →
    ∃ d m' size, m.complement f = (some d, m') ∧
      m.GrowsBy m' sizeF ∧ m'.size? d = some size ∧ size ≤ sizeF
  /-- The loop of a request ends with what the request leaves behind. -/
  run_ends {r : Request α} {run : Run α} : m.run? r = some run →
    ∃ result, Ends run.step run.start (result, (m.after r).store)
  /-- When a branch is built, nothing is remembered under its key. -/
  build_new {r : Request α} {run : Run α} {call : CallLoop α} {tasks : List (TreeTask α)}
    {values : List Nat} {key : Call} {level : Nat} {rest : List Task} : m.run? r = some run →
    Relation.ReflTransGen (fun l l' => run.step l = .inr l') run.start
      (.within call tasks values) →
    call.tasks = .build key level :: rest → key ∉ call.store.memo
  /-- Until the manager is cleared no call is split twice. -/
  splits_once {requests : List (Request α)} : (∀ r ∈ requests, r ≠ .clear) →
    ∃ keys, (∀ keys', m.SplitsAll requests keys' ↔ keys' = keys) ∧
      m.NewKeys (m.afterAll requests) keys

section NewKeys

omit [Scalar α]

theorem NewKeys.append {keys keys' : List Call} (h : m.NewKeys m' keys)
    (h' : m'.NewKeys m'' keys') : m.NewKeys m'' (keys ++ keys') where
  nodup := by
    refine List.nodup_append.mpr ⟨h.nodup, h'.nodup, ?_⟩
    rintro key hkey _ hkey' rfl
    exact h'.new hkey' ((h.remembered key).mpr (.inr hkey))
  new {key} hkey hmemo := by
    rcases List.mem_append.mp hkey with hkey | hkey
    · exact h.new hkey hmemo
    · exact h'.new hkey ((h.remembered key).mpr (.inl hmemo))
  remembered key := by rw [h'.remembered, h.remembered, List.mem_append, or_assoc]

theorem NewKeys.of_memo (h : m'.store.memo = m.store.memo) : m.NewKeys m' [] where
  nodup := .nil
  new hkey := by cases hkey
  remembered key := by simp [h]

end NewKeys

section Memo

theorem memo_bindVariables (m : Manager α) (bindings : Bindings) (names : List String) :
    (m.bindVariables bindings names).2.store.memo = m.store.memo := by
  induction names generalizing m bindings with
  | nil => rfl
  | cons name names ih => exact ih (m.indicator name).2 _

/-- Finding out what names stand for is no call. -/
theorem memo_resolve (m : Manager α) (names : Std.TreeSet String) (naming : Naming) :
    (m.resolve names naming).2.store.memo = m.store.memo := by
  cases naming with
  | interpretation given => rfl
  | encoding => exact m.memo_bindVariables ∅ names.toList

theorem memo_compileExpr {e : Expr α} {naming : Naming} (h : m.exprRun? e naming = none) :
    (m.compileExpr e naming).2.store.memo = m.store.memo := by
  have hmemo := m.memo_resolve e.names naming
  unfold exprRun? at h
  rcases hresolve : m.resolve e.names naming with ⟨error | bindings, m'⟩
  · rw [hresolve] at hmemo
    rw [Manager.compileExpr, hresolve]
    exact hmemo
  · rw [hresolve] at h
    cases h

theorem memo_compile {text : String} {naming : Naming} (h : m.textRun? text naming = none) :
    (m.compile text naming).2.store.memo = m.store.memo := by
  unfold textRun? at h
  rw [Manager.compile]
  rcases hparse : parse text with error | e
  · rfl
  · rw [hparse] at h
    exact memo_compileExpr h

/-- A request without a loop leaves the memory as it was. -/
theorem memo_after {r : Request α} (hr : r ≠ .clear) (h : m.run? r = none) :
    (m.after r).store.memo = m.store.memo := by
  cases r with
  | constant x => rfl
  | indicator name => rfl
  | resolve names naming => exact m.memo_resolve names naming
  | compileExpr e naming => exact memo_compileExpr h
  | compile text naming => exact memo_compile h
  | solve text given => exact memo_compile h
  | solveConstant text => exact memo_compile h
  | encode text => exact memo_compile h
  | combine op f g => cases h
  | negate f => cases h
  | complement f => cases h
  | evaluate bindings vocabulary e => cases h
  | clear => exact absurd rfl hr

end Memo

theorem lt_of_size? {f size : Nat} (h : m.size? f = some size) :
    f < m.table.size ∧ m.table.nodeCount f = size := by
  unfold size? Table.about at h
  split at h
  next hf => exact ⟨hf, Option.some.inj h⟩
  next => cases h

variable [LawfulScalar α]

structure Run.Carries (run : Run α) (m m' : Manager α) : Prop where
  valid : ∃ levels, run.start.Valid levels
  holds_iff (key : Call) : run.start.Holds key ↔ key ∈ m.store.memo
  ends : ∃ result, Ends run.step run.start (result, m'.store)

theorem WellFormed.callRun_carries (hm : m.WellFormed) (c : Call) :
    (m.callRun c).Carries m (m.perform? c).2 where
  valid := ⟨m.vars.size, CallLoop.start_valid hm.store c⟩
  holds_iff key := or_iff_left List.not_mem_nil
  ends := by
    have hends := hm.store.closed.ends_perform? c
    cases h : (m.store.perform? c).1 with
    | none =>
      rw [h] at hends
      exact ⟨_, TreeLoop.ends_within_error hends⟩
    | some d =>
      rw [h] at hends
      exact ⟨_, TreeLoop.ends_within hends (.stop rfl)⟩

theorem WellFormed.exprRun?_carries (hm : m.WellFormed) {e : Expr α} {naming : Naming}
    {run : Run α} (h : m.exprRun? e naming = some run) :
    run.Carries m (m.compileExpr e naming).2 := by
  have hkeeps := hm.resolve e.names naming
  have hmemo := m.memo_resolve e.names naming
  unfold exprRun? at h
  rcases hresolve : m.resolve e.names naming with ⟨error | bindings, m'⟩
  · rw [hresolve] at h
    cases h
  · rw [hresolve] at h hkeeps hmemo
    cases h
    rw [Manager.compileExpr, hresolve]
    have hends := TreeLoop.ends_evaluate hkeeps.wellFormed.store bindings naming.vocabulary e
    exact ⟨⟨_, hkeeps.wellFormed.store⟩, fun key => by rw [← hmemo]; rfl, ⟨_, hends⟩⟩

theorem WellFormed.textRun?_carries (hm : m.WellFormed) {text : String} {naming : Naming}
    {run : Run α} (h : m.textRun? text naming = some run) :
    run.Carries m (m.compile text naming).2 := by
  unfold textRun? at h
  rw [Manager.compile]
  rcases hparse : parse text with error | e
  · rw [hparse] at h
    cases h
  · rw [hparse] at h
    exact hm.exprRun?_carries h

theorem WellFormed.run?_carries (hm : m.WellFormed) {r : Request α} {run : Run α}
    (h : m.run? r = some run) : run.Carries m (m.after r) := by
  cases r with
  | combine op f g => cases h; exact hm.callRun_carries _
  | negate f => cases h; exact hm.callRun_carries _
  | complement f => cases h; exact hm.callRun_carries _
  | evaluate bindings vocabulary e =>
    cases h
    have hends := TreeLoop.ends_evaluate hm.store bindings vocabulary e
    exact ⟨⟨_, hm.store⟩, fun key => .rfl, ⟨_, hends⟩⟩
  | compileExpr e naming => exact hm.exprRun?_carries h
  | compile text naming => exact hm.textRun?_carries h
  | solve text given => exact hm.textRun?_carries h
  | solveConstant text => exact hm.textRun?_carries h
  | encode text => exact hm.textRun?_carries h
  | constant x => cases h
  | indicator name => cases h
  | resolve names naming => cases h
  | clear => cases h

/-- A request splits only calls that are not remembered, each of them once, and remembers them. -/
theorem WellFormed.splits (hm : m.WellFormed) {r : Request α} (hr : r ≠ .clear) :
    ∃ keys, (∀ keys', m.Splits r keys' ↔ keys' = keys) ∧ m.NewKeys (m.after r) keys := by
  unfold Splits
  cases hrun : m.run? r with
  | none => exact ⟨[], fun keys' => .rfl, .of_memo (memo_after hr hrun)⟩
  | some run =>
    obtain ⟨⟨levels, hvalid⟩, hholds, result, hends⟩ := hm.run?_carries hrun
    obtain ⟨keys, htrace⟩ := hends.exists_trace TreeLoop.splitting?
    obtain ⟨hnodup, hnew, hheld⟩ :=
      (TreeLoop.remembers levels run.bindings run.vocabulary).trace hvalid htrace
    refine ⟨keys, fun keys' => ⟨?_, ?_⟩, hnodup, fun {key} hkey hmemo => ?_, fun key => ?_⟩
    · rintro ⟨outcome, htrace'⟩
      exact htrace'.unique htrace
    · rintro rfl
      exact ⟨_, htrace⟩
    · exact hnew key hkey ((hholds key).mpr hmemo)
    · rw [← hholds]
      exact hheld key

theorem WellFormed.splitsAll (hm : m.WellFormed) {requests : List (Request α)}
    (h : ∀ r ∈ requests, r ≠ .clear) :
    ∃ keys, (∀ keys', m.SplitsAll requests keys' ↔ keys' = keys) ∧
      m.NewKeys (m.afterAll requests) keys := by
  induction requests generalizing m with
  | nil => exact ⟨[], fun keys' => .rfl, .of_memo rfl⟩
  | cons r requests ih =>
    obtain ⟨hr, hrest⟩ := List.forall_mem_cons.mp h
    obtain ⟨first, hfirst, hnewFirst⟩ := hm.splits hr
    obtain ⟨rest, hall, hnewRest⟩ := ih (hm.after r) hrest
    refine ⟨first ++ rest, fun keys' => ?_, hnewFirst.append hnewRest⟩
    simp only [SplitsAll, hfirst, hall]
    constructor
    · rintro ⟨_, _, rfl, rfl, rfl⟩
      rfl
    · rintro rfl
      exact ⟨first, rest, rfl, rfl, rfl⟩

theorem WellFormed.build_new (hm : m.WellFormed) {r : Request α} {run : Run α}
    (hrun : m.run? r = some run) {call : CallLoop α} {tasks : List (TreeTask α)}
    {values : List Nat}
    (hreach : Relation.ReflTransGen (fun l l' => run.step l = .inr l') run.start
      (.within call tasks values)) {key : Call} {level : Nat} {rest : List Task}
    (htasks : call.tasks = .build key level :: rest) : key ∉ call.store.memo := by
  obtain ⟨⟨levels, hvalid⟩, -, -⟩ := hm.run?_carries hrun
  have hwithin : call.Valid levels := hvalid.run hreach
  refine hwithin.fresh.new ?_
  rw [htasks]
  exact List.mem_cons_self

/-- A call in range has a result, which is bounded by the product of the sizes of its operands, as
is what the manager grows by. -/
theorem WellFormed.perform?_growsBy (hm : m.WellFormed) {c : Call} (hc : c.InRange m.nodeCount) :
    ∃ d m' size, m.perform? c = (some d, m') ∧ m.GrowsBy m' (c.sizeProduct m.table) ∧
      m'.size? d = some size ∧ size ≤ c.sizeProduct m.table ∧ m.Keeps m' ∧
      m'.table.Settled c d := by
  have hperform := hm.store.keeps_perform hc
  have hkeeps := hm.with_store hperform
  have hsettled := (hm.store.knows_perform hc).settled
  obtain ⟨-, -, htable⟩ := hm.store.perform hc
  refine ⟨(m.store.perform c).1, { m with store := (m.store.perform c).2 }, _, ?_, ⟨?_, ?_⟩,
    if_pos hsettled.lt_size, ?_, hkeeps, hsettled⟩
  · rw [Manager.perform?, Store.perform?_of_inRange hc]
  · have hsize := hm.store.table.size_expand_le hc
    rw [← htable] at hsize
    exact hsize
  · exact hm.store.closed.size_memo_perform_le hc
  · have hsize := hsettled.nodeCount_le hperform.wellFormed.table
    rw [Call.sizeProduct_grows hperform.grows hc] at hsize
    exact hsize

/-- Whatever has been asked of a manager, operations on its diagrams add no more than the product of
the sizes of their operands, and none of the calls that they come down to is carried out twice. -/
theorem Reachable.economical (hm : m.Reachable) : m.Economical := by
  have hwell := hm.wellFormed
  refine
    { combine := fun op {f g sizeF sizeG} hsizeF hsizeG => ?_
      negate := fun {f sizeF} hsizeF => ?_
      complement := fun {f sizeF} hsizeF => ?_
      run_ends := fun hrun => (hwell.run?_carries hrun).ends
      build_new := fun hrun hreach htasks => hwell.build_new hrun hreach htasks
      splits_once := hwell.splitsAll }
  · obtain ⟨hf, rfl⟩ := lt_of_size? hsizeF
    obtain ⟨hg, rfl⟩ := lt_of_size? hsizeG
    obtain ⟨d, m', size, hperform, hgrows, hsize, hle, -⟩ :=
      hwell.perform?_growsBy (c := .binary op f g) ⟨hf, hg⟩
    exact ⟨d, m', size, hperform, hgrows, hsize, hle⟩
  · obtain ⟨hf, rfl⟩ := lt_of_size? hsizeF
    obtain ⟨d, m', size, hperform, hgrows, hsize, hle, hkeeps, hsettled⟩ :=
      hwell.perform?_growsBy (c := .unary .negate f) hf
    refine ⟨d, m', size, hperform, hgrows, hsize, hle, fun hnegate => ?_⟩
    have hgrowth := hkeeps.grows.table
    rw [← (lt_of_size? hsize).2, ← hgrowth.nodeCount hf]
    exact hkeeps.wellFormed.table.nodeCount_negate hnegate (hgrowth.lt hf) hsettled
  · obtain ⟨hf, rfl⟩ := lt_of_size? hsizeF
    obtain ⟨d, m', size, hperform, hgrows, hsize, hle, -⟩ :=
      hwell.perform?_growsBy (c := .unary .complement f) hf
    exact ⟨d, m', size, hperform, hgrows, hsize, hle⟩

theorem Reachable.economical_negation :
    let m := ((initial : Manager Float).indicator "p").2
    let p := ((initial : Manager Float).indicator "p").1
    m.Reachable ∧ m.Economical ∧ ∃ d m' size, m.size? p = some size ∧
      m.negate p = (some d, m') ∧ m.GrowsBy m' size ∧ m'.size? d = some size := by
  intro m p
  have hm : m.Reachable := ⟨[.indicator "p"], rfl⟩
  have heconomical : m.Economical := Reachable.economical hm
  have hp : p < m.table.size := (initial_wellFormed.puts_indicator "p").lt_size
  have hsize : m.size? p = some (m.table.nodeCount p) := if_pos hp
  obtain ⟨d, m', size, hnegate, hgrows, hd, -, heq⟩ := heconomical.negate hsize
  rw [heq negatesBack_float] at hd
  exact ⟨hm, heconomical, d, m', _, hsize, hnegate, hgrows, hd⟩

end Manager

end DecisionDiagrams
