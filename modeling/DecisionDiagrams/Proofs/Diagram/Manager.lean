import DecisionDiagrams.Diagram.Manager
import DecisionDiagrams.Proofs.Diagram.Store

/-! Well-formed managers, and what every operation on one keeps. -/
namespace DecisionDiagrams

namespace Variables

/-- Names and levels determine each other. -/
def WellFormed (v : Variables) : Prop :=
  ∀ (name : String) (level : Nat), v.level? name = some level ↔ v.name? level = some name

structure Grows (v v' : Variables) : Prop where
  size_le : v.size ≤ v'.size
  name? {level : Nat} : level < v.size → v'.name? level = v.name? level

theorem Grows.refl (v : Variables) : v.Grows v := ⟨Nat.le_refl _, fun _ => rfl⟩

theorem Grows.trans {v v' v'' : Variables} (h : v.Grows v') (h' : v'.Grows v'') : v.Grows v'' :=
  ⟨h.size_le.trans h'.size_le,
    fun hlevel => (h'.name? (hlevel.trans_le h.size_le)).trans (h.name? hlevel)⟩

theorem none_wellFormed : none.WellFormed := by
  intro name level
  simp [none, level?, name?]

theorem lt_size_of_name? {v : Variables} {level : Nat} {name : String}
    (h : v.name? level = some name) : level < v.size :=
  (Array.getElem?_eq_some_iff.mp h).1

theorem exists_name? {v : Variables} {level : Nat} :
    (∃ name, v.name? level = some name) ↔ level < v.size :=
  ⟨fun ⟨_, h⟩ => lt_size_of_name? h, fun h => ⟨_, Array.getElem?_eq_getElem h⟩⟩

theorem WellFormed.level?_lt {v : Variables} (hv : v.WellFormed) {name : String} {level : Nat}
    (h : v.level? name = some level) : level < v.size :=
  lt_size_of_name? ((hv name level).mp h)

section Intern

variable {v : Variables} {name : String}

theorem intern_of_level? {level : Nat} (h : v.level? name = some level) :
    v.intern name = (level, v) := by
  simp only [intern, show v.levels[name]? = some level from h]

theorem intern_of_new (h : v.level? name = Option.none) :
    v.intern name = (v.size, ⟨v.names.push name, v.levels.insert name v.size⟩) := by
  simp only [intern, show v.levels[name]? = Option.none from h]

theorem grows_intern (v : Variables) (name : String) : v.Grows (v.intern name).2 := by
  cases h : v.level? name with
  | some level => rw [intern_of_level? h]; exact .refl v
  | none =>
    rw [intern_of_new h]
    refine ⟨by simp [size], fun {level} hlevel => ?_⟩
    simp only [Variables.name?, Array.getElem?_push]
    exact if_neg hlevel.ne

theorem WellFormed.intern (hv : v.WellFormed) (name : String) :
    (v.intern name).2.WellFormed ∧ (v.intern name).2.level? name = some (v.intern name).1 := by
  cases h : v.level? name with
  | some level => rw [intern_of_level? h]; exact ⟨hv, h⟩
  | none =>
    rw [intern_of_new h]
    refine ⟨fun name' level => ?_, by simp [level?]⟩
    have hlevels : (v.levels.insert name v.size)[name']? =
        if name = name' then some v.size else v.level? name' := by
      simp [Std.HashMap.getElem?_insert, level?]
    have hnames : (v.names.push name)[level]? =
        if level = v.size then some name else v.name? level := Array.getElem?_push
    rw [Variables.level?, Variables.name?, hlevels, hnames]
    split
    next hname =>
      subst hname
      split
      next hlevel => simp [hlevel]
      next hlevel =>
        refine iff_of_false (fun heq => hlevel (Option.some.inj heq).symm) fun heq => ?_
        rw [(hv name level).mpr heq] at h
        cases h
    next hname =>
      split
      next hlevel =>
        refine iff_of_false (fun heq => ?_) fun heq => hname (Option.some.inj heq)
        exact absurd (hv.level?_lt heq) hlevel.not_lt
      next => exact hv name' level

end Intern

end Variables

namespace Store

variable {α : Type} [Scalar α]

theorem perform?_of_inRange {s : Store α} {c : Call} (hc : c.InRange s.table.size) :
    s.perform? c = (some (s.perform c).1, (s.perform c).2) := by
  simp only [perform?, if_pos hc]

theorem perform?_of_not_inRange {s : Store α} {c : Call} (hc : ¬c.InRange s.table.size) :
    s.perform? c = (none, s) := by
  simp only [perform?, if_neg hc]

variable [LawfulScalar α] {levels : Nat} {s : Store α}

theorem WellFormed.constant (hs : s.WellFormed levels) (x : α) :
    Keeps levels s (s.constant x).2 := by
  have hputs := hs.table.terminal x
  exact hs.with_table hputs.wellFormed hputs.grows

theorem WellFormed.perform? (hs : s.WellFormed levels) (c : Call) :
    Keeps levels s (s.perform? c).2 := by
  by_cases hc : c.InRange s.table.size
  · rw [perform?_of_inRange hc]
    exact hs.keeps_perform hc
  · rw [perform?_of_not_inRange hc]
    exact hs.keeps

end Store

namespace Manager

variable {α : Type}

structure Grows (m m' : Manager α) : Prop where
  table : m.table.Grows m'.table
  vars : m.vars.Grows m'.vars

theorem Grows.refl (m : Manager α) : m.Grows m := ⟨.refl _, .refl _⟩

theorem Grows.trans {m m' m'' : Manager α} (h : m.Grows m') (h' : m'.Grows m'') : m.Grows m'' :=
  ⟨h.table.trans h'.table, h.vars.trans h'.vars⟩

theorem lt_of_contains {m : Manager α} {d : Nat} (h : m.contains d = true) : d < m.table.size :=
  of_decide_eq_true h

variable [Scalar α]

theorem value?_of_lt {m : Manager α} {d : Nat} (hd : d < m.table.size) (a : Assignment) :
    m.value? a d = some (m.table.value a.truth d) := if_pos hd

structure WellFormed (m : Manager α) : Prop where
  store : m.store.WellFormed m.vars.size
  vars : m.vars.WellFormed

structure Keeps (m m' : Manager α) : Prop where
  wellFormed : m'.WellFormed
  grows : m.Grows m'
  memo {c : Call} {d : Nat} : m.store.memo[c]? = some d → m'.store.memo[c]? = some d

theorem Keeps.trans {m m' m'' : Manager α} (h : m.Keeps m') (h' : m'.Keeps m'') : m.Keeps m'' :=
  ⟨h'.wellFormed, h.grows.trans h'.grows, fun hmemo => h'.memo (h.memo hmemo)⟩

theorem Keeps.store {m m' : Manager α} (h : m.Keeps m') : m.store.Keeps m'.vars.size m'.store :=
  ⟨h.wellFormed.store, h.grows.table, h.memo⟩

namespace WellFormed

variable {m : Manager α}

theorem table (hm : m.WellFormed) : m.table.WellFormed m.vars.size := hm.store.table

theorem keeps (hm : m.WellFormed) : m.Keeps m := ⟨hm, .refl m, id⟩

theorem with_store (hm : m.WellFormed) {s : Store α} (h : m.store.Keeps m.vars.size s) :
    m.Keeps { m with store := s } :=
  ⟨⟨h.wellFormed, hm.vars⟩, ⟨h.grows, .refl _⟩, h.memo⟩

variable [LawfulScalar α]

theorem constant (hm : m.WellFormed) (x : α) : m.Keeps (m.constant x).2 :=
  hm.with_store (hm.store.constant x)

theorem puts_constant (hm : m.WellFormed) (x : α) :
    Table.Puts m.vars.size m.table (.terminal (Scalar.canonical x))
      ((m.constant x).1, (m.constant x).2.table) := hm.table.terminal x

theorem perform? (hm : m.WellFormed) (c : Call) : m.Keeps (m.perform? c).2 :=
  hm.with_store (hm.store.perform? c)

/-- The branch of the named variable is put into the table. -/
theorem puts_indicator (hm : m.WellFormed) (name : String) :
    Table.Puts (m.indicator name).2.vars.size m.table
      (.branch (m.vars.intern name).1 Table.zero Table.one)
      ((m.indicator name).1, (m.indicator name).2.table) := by
  obtain ⟨hvars, hlevel⟩ := hm.vars.intern name
  have ht := hm.table.mono (m.vars.grows_intern name).size_le
  refine ht.branch ht.zero_lt_size ht.one_lt_size ⟨Nat.zero_ne_one, hvars.level?_lt hlevel, ?_, ?_⟩
  · exact Table.testsFrom_terminal ht.node_zero _
  · exact Table.testsFrom_terminal ht.node_one _

theorem indicator (hm : m.WellFormed) (name : String) : m.Keeps (m.indicator name).2 := by
  have hputs := hm.puts_indicator name
  have hvars := m.vars.grows_intern name
  have hstore := (hm.store.mono hvars.size_le).with_table hputs.wellFormed hputs.grows
  exact ⟨⟨hstore.wellFormed, (hm.vars.intern name).1⟩, ⟨hputs.grows, hvars⟩, hstore.memo⟩

end WellFormed

theorem initial_wellFormed [LawfulScalar α] : (initial : Manager α).WellFormed :=
  ⟨Store.initial_wellFormed _, Variables.none_wellFormed⟩

end Manager

end DecisionDiagrams
