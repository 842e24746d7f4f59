import DecisionDiagrams.Proofs.Compile.Formula
import DecisionDiagrams.Proofs.Loop.Safety

/-! Diagrams are permanent. As long as a manager is not cleared, its nodes and its variables stay
at their places, so that a diagram keeps its value, its size and its drawing, whatever is asked of
the manager and however that ends. -/
namespace DecisionDiagrams

namespace Variables

variable {v v' : Variables}

theorem Grows.isPrefix (h : v.Grows v') : v.names.toList <+: v'.names.toList := by
  rw [List.prefix_iff_getElem?]
  intro level hlevel
  rw [Array.length_toList] at hlevel
  have hname : v'.names[level]? = v.names[level]? := h.name? hlevel
  rw [Array.getElem?_toList, hname, Array.getElem?_eq_getElem hlevel, Array.getElem_toList]

/-- Old levels have the same truth values in an assignment to names that is made later. -/
theorem Grows.truth_assignment (h : v.Grows v') (hv : v.WellFormed) (hv' : v'.WellFormed)
    (truths : List (String × Bool)) {level : Nat} (hlevel : level < v.size) :
    Assignment.truth (v.assignment truths) level =
      Assignment.truth (v'.assignment truths) level := by
  obtain ⟨name, hname⟩ := exists_name?.mpr hlevel
  have hold := (hv name level).mpr hname
  have hnew := h.level? hv hv' hold
  rw [hv.truth_assignment hold, hv'.truth_assignment hnew]

end Variables

namespace Table

theorem Grows.isPrefix {α : Type} {t t' : Table α} (h : t.Grows t') :
    t.cells.toList <+: t'.cells.toList := by
  rw [List.prefix_iff_getElem?]
  intro d hd
  rw [Array.length_toList] at hd
  rw [Array.getElem?_toList, h.cell hd, Array.getElem?_eq_getElem hd, Array.getElem_toList]

theorem Grows.about {α β : Type} {t t' : Table α} (h : t.Grows t') {d : Nat} (hd : d < t.size)
    (answer : β) : t'.about d answer = t.about d answer := by
  rw [Table.about, Table.about, if_pos (h.lt hd), if_pos hd]

variable {α : Type} [Scalar α] {t t' : Table α}

theorem lt_of_mem_reachable {roots : List Nat} (hroots : ∀ root ∈ roots, root < t.size) {d : Nat}
    (hd : d ∈ t.reachable roots) : d < t.size := by
  obtain ⟨root, hroot, hreaches⟩ := mem_reachable.mp hd
  exact hreaches.le.trans_lt (hroots root hroot)

theorem Grows.reachable_equiv (h : t.Grows t') {roots : List Nat}
    (hroots : ∀ root ∈ roots, root < t.size) :
    (t'.reachable roots).Equiv (t.reachable roots) := by
  apply Std.TreeSet.Equiv.of_forall_mem_iff
  intro d
  rw [mem_reachable, mem_reachable]
  exact exists_congr fun root => and_congr_right fun hroot => h.reaches_iff (hroots root hroot)

theorem Grows.nodeCount (h : t.Grows t') {d : Nat} (hd : d < t.size) :
    t'.nodeCount d = t.nodeCount d :=
  (h.reachable_equiv (List.forall_mem_singleton.mpr hd)).size_eq

theorem Grows.constant? (h : t.Grows t') {d : Nat} (hd : d < t.size) :
    t'.constant? d = t.constant? d := by
  rw [Table.constant?, Table.constant?, h.node hd]

end Table

namespace Manager

variable {α : Type} [Scalar α] {m m' : Manager α}

section Drawing

variable {nodes : List Nat}

theorem Grows.branchLevel? (h : m.Grows m') {d : Nat} (hd : d < m.table.size) :
    m'.branchLevel? d = m.branchLevel? d := by
  rw [Manager.branchLevel?, Manager.branchLevel?, h.table.node hd]

theorem Grows.levels (h : m.Grows m') (hnodes : ∀ d ∈ nodes, d < m.table.size) :
    nodes.filterMap m'.branchLevel? = nodes.filterMap m.branchLevel? :=
  List.filterMap_congr fun d hd => h.branchLevel? (hnodes d hd)

theorem Grows.onLevel (h : m.Grows m') (hnodes : ∀ d ∈ nodes, d < m.table.size) (level : Nat) :
    nodes.filter (fun d => m'.branchLevel? d = some level) =
      nodes.filter fun d => m.branchLevel? d = some level := by
  apply List.filter_congr
  intro d hd
  rw [h.branchLevel? (hnodes d hd)]

theorem Grows.terminals (h : m.Grows m') (hnodes : ∀ d ∈ nodes, d < m.table.size) :
    nodes.filterMap (fun d => (m'.terminalText? d).map (d, ·)) =
      nodes.filterMap fun d => (m.terminalText? d).map (d, ·) := by
  apply List.filterMap_congr
  intro d hd
  rw [terminalText?, terminalText?, h.table.node (hnodes d hd)]

theorem Grows.edges (h : m.Grows m') (hnodes : ∀ d ∈ nodes, d < m.table.size) :
    nodes.flatMap m'.edges = nodes.flatMap m.edges := by
  apply List.flatMap_congr
  intro d hd
  rw [Manager.edges, Manager.edges, h.table.node (hnodes d hd)]

/-- The levels of old nodes are those of old variables. -/
theorem Grows.levelName? (h : m.Grows m') (hm : m.WellFormed)
    (hnodes : ∀ d ∈ nodes, d < m.table.size) {level : Nat}
    (hlevel : level ∈ (Std.TreeSet.ofList (nodes.filterMap m.branchLevel?)).toList) :
    m'.vars.name? level = m.vars.name? level := by
  rw [Std.TreeSet.mem_toList, Std.TreeSet.mem_ofList, List.contains_iff_mem] at hlevel
  obtain ⟨d, hd, hbranch⟩ := List.mem_filterMap.mp hlevel
  have hname := hm.isSome_name? (decide_eq_true (hnodes d hd)) hbranch
  obtain ⟨name, hname⟩ := Option.isSome_iff_exists.mp hname
  exact h.vars.name? (Variables.lt_size_of_name? hname)

/-- The drawing of old diagrams has old nodes and old names only. -/
theorem Grows.drawing (h : m.Grows m') (hm : m.WellFormed) {roots : List (Nat × String)}
    (hroots : ∀ root ∈ roots, root.1 < m.table.size) : m'.drawing roots = m.drawing roots := by
  have hnumbers : ∀ root ∈ roots.map Prod.fst, root < m.table.size := List.forall_mem_map.mpr hroots
  have hreachable := (h.table.reachable_equiv hnumbers).toList_eq
  have hnodes : ∀ d ∈ (m.table.reachable (roots.map Prod.fst)).toList, d < m.table.size := by
    intro d hd
    exact Table.lt_of_mem_reachable hnumbers (Std.TreeSet.mem_toList.mp hd)
  unfold Manager.drawing
  rw [hreachable]
  generalize (m.table.reachable (roots.map Prod.fst)).toList = nodes at hnodes
  have hedges (level : Nat) :
      (nodes.filter fun d => m.branchLevel? d = some level).flatMap m'.edges =
        (nodes.filter fun d => m.branchLevel? d = some level).flatMap m.edges :=
    h.edges fun d hd => hnodes d (List.mem_of_mem_filter hd)
  simp only [h.levels hnodes, h.onLevel hnodes, h.terminals hnodes, hedges]
  congr 1
  apply List.map_congr_left
  intro level hlevel
  rw [h.levelName? hm hnodes hlevel]

end Drawing

structure Preserves (m m' : Manager α) : Prop where
  nodes : m.table.cells.toList <+: m'.table.cells.toList
  names : m.vars.names.toList <+: m'.vars.names.toList
  level? {name : String} {level : Nat} :
    m.vars.level? name = some level → m'.vars.level? name = some level
  contains {d : Nat} : m.contains d = true → m'.contains d = true
  constant? {d : Nat} : m.contains d = true → m'.constant? d = m.constant? d
  value? {d : Nat} : m.contains d = true → ∀ a, m'.value? a d = m.value? a d
  /-- An assignment to names that was made before is as good as one that is made now. -/
  assignment {d : Nat} : m.contains d = true → ∀ truths,
    m'.value? (m.vars.assignment truths) d = m'.value? (m'.vars.assignment truths) d
  size? {d : Nat} : m.contains d = true → m'.size? d = m.size? d
  dot? {roots : List (Nat × String)} : (∀ root ∈ roots, m.contains root.1 = true) →
    m'.dot? roots = m.dot? roots

theorem Keeps.preserves (hm : m.WellFormed) (h : m.Keeps m') : m.Preserves m' := by
  have hgrows := h.grows
  have hvalue {d : Nat} (hd : d < m.table.size) (a : Assignment) :
      m'.value? a d = m.value? a d := by
    rw [Manager.value?, hgrows.table.value a.truth hd, hgrows.table.about hd]
    rfl
  refine
    { nodes := hgrows.table.isPrefix
      names := hgrows.vars.isPrefix
      level? := hgrows.vars.level? hm.vars h.wellFormed.vars
      contains := fun hd => decide_eq_true (hgrows.table.lt (lt_of_contains hd))
      constant? := fun hd => ?_
      value? := fun hd a => hvalue (lt_of_contains hd) a
      assignment := fun hd truths => ?_
      size? := fun hd => ?_
      dot? := fun {roots} hroots => ?_ }
  · rw [Manager.constant?, hgrows.table.constant? (lt_of_contains hd),
      hgrows.table.about (lt_of_contains hd)]
    rfl
  · have hlt := lt_of_contains hd
    rw [hvalue hlt, hvalue hlt, value?_of_lt hlt, value?_of_lt hlt]
    refine congrArg some (hm.table.value_congr hlt (fun _ _ => Nat.zero_le _) ?_)
    intro level _ hlevel
    exact hgrows.vars.truth_assignment hm.vars h.wellFormed.vars truths hlevel
  · rw [Manager.size?, hgrows.table.nodeCount (lt_of_contains hd),
      hgrows.table.about (lt_of_contains hd)]
    rfl
  · have hroots' : roots.all (fun root => m'.contains root.1) = true := by
      simp only [List.all_eq_true]
      intro root hroot
      exact decide_eq_true (hgrows.table.lt (lt_of_contains (hroots root hroot)))
    rw [Manager.dot?, Manager.dot?, if_pos hroots', if_pos (List.all_eq_true.mpr hroots),
      hgrows.drawing hm fun root hroot => lt_of_contains (hroots root hroot)]

variable [LawfulScalar α]

/-- Whatever is asked of a manager, and however that ends, its diagrams and variables remain what
they are, unless it is cleared. -/
theorem diagrams_permanent (hm : m.Reachable) :
    (∀ r : Request α, r ≠ .clear → m.Preserves (m.after r)) ∧
    ∀ requests : List (Request α), (∀ r ∈ requests, r ≠ .clear) →
      m.Preserves (m.afterAll requests) := by
  have hwell := hm.wellFormed
  exact ⟨fun r hr => (hwell.keeps_after hr).preserves hwell,
    fun requests h => (hwell.keeps_afterAll h).preserves hwell⟩

theorem diagrams_permanent_of_indicator :
    let m := ((initial : Manager Float).indicator "p").2
    let p := ((initial : Manager Float).indicator "p").1
    let m' := m.afterAll [.encode "q && !p", .combine .add p 99, .solveConstant "1 +"]
    m.Reachable ∧ m.contains p = true ∧ m.Preserves m' ∧
      m'.value? (m.vars.assignment [("p", true)]) p =
        m.value? (m.vars.assignment [("p", true)]) p ∧
      m'.dot? [(p, "p")] = m.dot? [(p, "p")] := by
  intro m p m'
  have hm : m.Reachable := ⟨[.indicator "p"], rfl⟩
  have hp : m.contains p = true :=
    decide_eq_true (initial_wellFormed.puts_indicator "p").lt_size
  have hpreserves : m.Preserves m' := (diagrams_permanent hm).2 _ (by simp)
  exact ⟨hm, hp, hpreserves, hpreserves.value? hp _, hpreserves.dot? (by simpa using hp)⟩

end Manager

end DecisionDiagrams
