import DecisionDiagrams.Proofs.Compile.Equivalence
import DecisionDiagrams.Proofs.Drawing.Reading
import DecisionDiagrams.Proofs.History.Permanence

/-! What a drawing shows. It has the nodes that can be reached from the roots, each of them once,
and the edges of the branches among them. To follow the edges that an assignment chooses comes to
the value of the diagram. -/
namespace DecisionDiagrams

namespace Drawing

def nodes (g : Drawing) : List Nat := g.ranks.flatMap Rank.branches ++ g.terminals.map Prod.fst

/-- Solid edges are followed where the name of the rank is true, and dashed ones elsewhere, down to
the text of a terminal. -/
inductive Leads (g : Drawing) (truth : String → Bool) : Nat → String → Prop where
  | terminal {d : Nat} {text : String} (h : (d, text) ∈ g.terminals) : Leads g truth d text
  | branch {rank : Rank} {d target : Nat} {text : String} (hrank : rank ∈ g.ranks)
      (hd : d ∈ rank.branches) (hedge : ⟨d, target, !truth rank.label⟩ ∈ g.edges)
      (h : Leads g truth target text) : Leads g truth d text

end Drawing

namespace Manager

variable {α : Type} [Scalar α]

/-- A path leads to the node from one of the roots. -/
def Draws (m : Manager α) (roots : List (Nat × String)) (d : Nat) : Prop :=
  ∃ root ∈ roots, m.table.Reaches root.1 d

section Parts

variable {m : Manager α} {roots : List (Nat × String)} {d level : Nat}

theorem Draws.child (h : m.Draws roots d) {child : Nat} (hchild : m.table.IsChild d child) :
    m.Draws roots child := by
  obtain ⟨root, hroot, hreaches⟩ := h
  exact ⟨root, hroot, hreaches.trans_child hchild⟩

theorem Draws.lt_size (h : m.Draws roots d) (hroots : ∀ root ∈ roots, root.1 < m.table.size) :
    d < m.table.size := by
  obtain ⟨root, hroot, hreaches⟩ := h
  exact hreaches.le.trans_lt (hroots root hroot)

def drawn (m : Manager α) (roots : List (Nat × String)) : List Nat :=
  (m.table.reachable (roots.map Prod.fst)).toList

theorem mem_drawn : d ∈ m.drawn roots ↔ m.Draws roots d := by
  simp [drawn, Draws, Table.mem_reachable]

theorem ascending_toList (found : Std.TreeSet Nat) : found.toList.Pairwise (· < ·) :=
  found.ordered_toList.imp fun h => Nat.compare_eq_lt.mp h

def drawnLevels (m : Manager α) (roots : List (Nat × String)) : List Nat :=
  (Std.TreeSet.ofList ((m.drawn roots).filterMap m.branchLevel?)).toList

theorem mem_drawnLevels :
    level ∈ m.drawnLevels roots ↔ ∃ d, m.Draws roots d ∧ m.table.level? d = some level := by
  simp only [drawnLevels, Std.TreeSet.mem_toList, Std.TreeSet.mem_ofList, List.contains_iff_mem,
    List.mem_filterMap, mem_drawn]
  rfl

def drawnOn (m : Manager α) (roots : List (Nat × String)) (level : Nat) : List Nat :=
  (m.drawn roots).filter fun d => m.branchLevel? d = some level

theorem mem_drawnOn :
    d ∈ m.drawnOn roots level ↔ m.Draws roots d ∧ m.table.level? d = some level := by
  simp only [drawnOn, List.mem_filter, mem_drawn, decide_eq_true_eq]
  rfl

theorem ranks_drawing : (m.drawing roots).ranks =
    (m.drawnLevels roots).map fun level => ⟨(m.vars.name? level).getD "", m.drawnOn roots level⟩ :=
  rfl

theorem mem_branches :
    d ∈ (m.drawing roots).ranks.flatMap Rank.branches ↔
      m.Draws roots d ∧ ∃ level, m.table.level? d = some level := by
  simp only [ranks_drawing, List.mem_flatMap, List.mem_map, exists_exists_and_eq_and, mem_drawnOn]
  constructor
  · rintro ⟨level, -, hd, hlevel⟩
    exact ⟨hd, level, hlevel⟩
  · rintro ⟨hd, level, hlevel⟩
    exact ⟨level, mem_drawnLevels.mpr ⟨d, hd, hlevel⟩, hd, hlevel⟩

theorem terminalText?_eq_some_iff {text : String} :
    m.terminalText? d = some text ↔ ∃ x, m.table.node d = .terminal x ∧ text = Scalar.text x := by
  unfold terminalText?
  split
  next x hn => simp [hn, eq_comm]
  next hn => simp [hn]

theorem mem_terminals {text : String} :
    (d, text) ∈ (m.drawing roots).terminals ↔
      m.Draws roots d ∧ ∃ x, m.table.node d = .terminal x ∧ text = Scalar.text x := by
  have hmem : (d, text) ∈ (m.drawing roots).terminals ↔
      ∃ r ∈ m.drawn roots, (m.terminalText? r).map (r, ·) = some (d, text) := List.mem_filterMap
  rw [hmem, ← terminalText?_eq_some_iff]
  constructor
  · rintro ⟨r, hr, htext⟩
    obtain ⟨text', htext', heq⟩ := Option.map_eq_some_iff.mp htext
    cases heq
    exact ⟨mem_drawn.mp hr, htext'⟩
  · rintro ⟨hd, htext⟩
    exact ⟨d, mem_drawn.mpr hd, by rw [htext, Option.map_some]⟩

theorem mem_edges_iff {e : Edge} :
    e ∈ m.edges d ↔ e.source = d ∧ ∃ level low high, m.table.node d = .branch level low high ∧
      e.target = if e.dashed then low else high := by
  obtain ⟨source, target, dashed⟩ := e
  unfold edges
  split
  next hn => simp [hn]
  next level low high hn => cases dashed <;> simp [hn, eq_comm (a := target)]

theorem edges_drawing : (m.drawing roots).edges =
    ((m.drawing roots).ranks.flatMap Rank.branches).flatMap m.edges := by
  rw [ranks_drawing, List.flatMap_map, List.flatMap_assoc]
  rfl

theorem mem_edges {e : Edge} :
    e ∈ (m.drawing roots).edges ↔ m.Draws roots e.source ∧ ∃ level low high,
      m.table.node e.source = .branch level low high ∧
        e.target = if e.dashed then low else high := by
  rw [edges_drawing, List.mem_flatMap]
  constructor
  · rintro ⟨d, hd, he⟩
    obtain ⟨rfl, hbranch⟩ := mem_edges_iff.mp he
    exact ⟨(mem_branches.mp hd).1, hbranch⟩
  · rintro ⟨hdraws, level, low, high, hn, htarget⟩
    have hd := mem_branches.mpr ⟨hdraws, level, Table.level?_branch hn⟩
    exact ⟨e.source, hd, mem_edges_iff.mpr ⟨rfl, level, low, high, hn, htarget⟩⟩

theorem mem_nodes : d ∈ (m.drawing roots).nodes ↔ m.Draws roots d := by
  rw [Drawing.nodes, List.mem_append, mem_branches, List.mem_map]
  constructor
  · rintro (⟨hd, -⟩ | ⟨⟨d, text⟩, hd, rfl⟩)
    · exact hd
    · exact (mem_terminals.mp hd).1
  · intro hd
    cases hlevel : m.table.level? d with
    | some level => exact .inl ⟨hd, level, rfl⟩
    | none =>
      obtain ⟨x, hx⟩ := Table.exists_terminal_of_level? hlevel
      exact .inr ⟨(d, Scalar.text x), mem_terminals.mpr ⟨hd, x, hx, rfl⟩, rfl⟩

theorem nodup_branches : ((m.drawing roots).ranks.flatMap Rank.branches).Nodup := by
  have hdrawn : (m.drawn roots).Nodup := (ascending_toList _).imp Nat.ne_of_lt
  rw [ranks_drawing, List.flatMap_map, List.nodup_flatMap]
  constructor
  · intro level _
    exact hdrawn.filter _
  · apply (ascending_toList _).imp
    intro level level' hlt d hd hd'
    have hlevel := (mem_drawnOn.mp hd).2
    rw [(mem_drawnOn.mp hd').2] at hlevel
    cases hlevel
    exact Nat.lt_irrefl level hlt

theorem nodup_nodes : (m.drawing roots).nodes.Nodup := by
  have hdrawn : (m.drawn roots).Nodup := (ascending_toList _).imp Nat.ne_of_lt
  rw [Drawing.nodes, List.nodup_append']
  refine ⟨nodup_branches, ?_, ?_⟩
  · have hterminals : (m.drawing roots).terminals.map Prod.fst = (m.drawn roots).filterMap fun d =>
        ((m.terminalText? d).map (d, ·)).map Prod.fst := List.map_filterMap
    rw [hterminals]
    apply hdrawn.filterMap
    intro d d' r hr hr'
    simp only [Option.map_map, Option.mem_def, Option.map_eq_some_iff, Function.comp_def] at hr hr'
    obtain ⟨_, -, rfl⟩ := hr
    obtain ⟨_, -, rfl⟩ := hr'
    rfl
  · intro d hd hd'
    obtain ⟨-, level, hlevel⟩ := mem_branches.mp hd
    obtain ⟨⟨_, text⟩, hterminal, rfl⟩ := List.mem_map.mp hd'
    obtain ⟨-, x, hx, -⟩ := mem_terminals.mp hterminal
    rw [Table.level?_terminal hx] at hlevel
    cases hlevel

theorem nodup_edges : (m.drawing roots).edges.Nodup := by
  rw [edges_drawing, List.nodup_flatMap]
  constructor
  · intro d _
    unfold edges
    split
    next => exact List.nodup_nil
    next => simp
  · apply nodup_branches.imp
    intro d d' hne e he he'
    exact hne ((mem_edges_iff.mp he).1.symm.trans (mem_edges_iff.mp he').1)

end Parts

structure IsRank (m : Manager α) (roots : List (Nat × String)) (level : Nat) (rank : Rank) :
    Prop where
  name? : m.vars.name? level = some rank.label
  ne_nil : rank.branches ≠ []
  ascending : rank.branches.Pairwise (· < ·)
  mem_iff (d : Nat) : d ∈ rank.branches ↔ m.Draws roots d ∧ m.table.level? d = some level

structure Depicts (m : Manager α) (roots : List (Nat × String)) (g : Drawing) : Prop where
  roots_eq : g.roots = roots
  nodup_nodes : g.nodes.Nodup
  mem_nodes (d : Nat) : d ∈ g.nodes ↔ m.Draws roots d
  root_mem_nodes {root : Nat × String} : root ∈ roots → root.1 ∈ g.nodes
  ranks : ∃ levels : List Nat, levels.Pairwise (· < ·) ∧
    List.Forall₂ (m.IsRank roots) levels g.ranks
  mem_terminals (d : Nat) (text : String) : (d, text) ∈ g.terminals ↔
    m.Draws roots d ∧ ∃ x, m.table.node d = .terminal x ∧ text = Scalar.text x
  nodup_edges : g.edges.Nodup
  /-- Every branch has a solid edge to its high child and a dashed one to its low child. -/
  mem_edges (e : Edge) : e ∈ g.edges ↔ m.Draws roots e.source ∧ ∃ level low high,
    m.table.node e.source = .branch level low high ∧ e.target = if e.dashed then low else high
  ends_mem_nodes {e : Edge} : e ∈ g.edges → e.source ∈ g.nodes ∧ e.target ∈ g.nodes
  size? {d : Nat} {label : String} : roots = [(d, label)] → m.size? d = some g.nodes.length
  leads_iff {root : Nat × String} : root ∈ roots → ∀ (a : Assignment) (text : String),
    g.Leads (m.vars.nameTruth a.truth) root.1 text ↔
      ∃ x, m.value? a root.1 = some x ∧ text = Scalar.text x

namespace WellFormed

variable {m : Manager α} {roots : List (Nat × String)} {d level : Nat}

theorem isRank (hm : m.WellFormed) (hroots : ∀ root ∈ roots, root.1 < m.table.size)
    (hlevel : level ∈ m.drawnLevels roots) :
    m.IsRank roots level ⟨(m.vars.name? level).getD "", m.drawnOn roots level⟩ := by
  obtain ⟨d, hd, htests⟩ := mem_drawnLevels.mp hlevel
  have hname := hm.isSome_name? (decide_eq_true (hd.lt_size hroots)) htests
  obtain ⟨name, hname⟩ := Option.isSome_iff_exists.mp hname
  refine ⟨by rw [hname, Option.getD_some], ?_, (ascending_toList _).filter _, ?_⟩
  · exact List.ne_nil_of_mem (mem_drawnOn.mpr ⟨hd, htests⟩)
  · intro r
    exact mem_drawnOn

theorem forall₂_isRank (hm : m.WellFormed) (hroots : ∀ root ∈ roots, root.1 < m.table.size) :
    List.Forall₂ (m.IsRank roots) (m.drawnLevels roots) (m.drawing roots).ranks := by
  rw [ranks_drawing, List.forall₂_map_right_iff, List.forall₂_same]
  intro level hlevel
  exact hm.isRank hroots hlevel

/-- Branches of a rank test the level that has the name of the rank. -/
theorem exists_isRank (hm : m.WellFormed) (hroots : ∀ root ∈ roots, root.1 < m.table.size)
    {rank : Rank} (hrank : rank ∈ (m.drawing roots).ranks) :
    ∃ level, m.IsRank roots level rank := by
  rw [ranks_drawing, List.mem_map] at hrank
  obtain ⟨level, hlevel, rfl⟩ := hrank
  exact ⟨level, hm.isRank hroots hlevel⟩

theorem exists_rank (hm : m.WellFormed) (hroots : ∀ root ∈ roots, root.1 < m.table.size)
    (hd : m.Draws roots d) (hlevel : m.table.level? d = some level) :
    ∃ rank ∈ (m.drawing roots).ranks, m.IsRank roots level rank ∧ d ∈ rank.branches := by
  have hmem := mem_drawnLevels.mpr ⟨d, hd, hlevel⟩
  have hrank := hm.isRank hroots hmem
  refine ⟨_, ?_, hrank, (hrank.mem_iff d).mpr ⟨hd, hlevel⟩⟩
  rw [ranks_drawing]
  exact List.mem_map_of_mem hmem

/-- A branch has the value of the child that the name of its rank chooses. -/
theorem value_of_isRank {rank : Rank} (hrank : m.IsRank roots level rank) {low high : Nat}
    (hn : m.table.node d = .branch level low high) (truth : String → Bool) :
    m.table.value (m.vars.levelTruth truth) d =
      m.table.value (m.vars.levelTruth truth) (if !truth rank.label then low else high) := by
  have hlevel : m.vars.levelTruth truth level = truth rank.label := by
    rw [Variables.levelTruth, hrank.name?, Option.elim_some]
  rw [Table.value_branch hn, hlevel]
  cases truth rank.label <;> rfl

theorem text_of_leads (hm : m.WellFormed) (hroots : ∀ root ∈ roots, root.1 < m.table.size)
    {truth : String → Bool} {text : String} (h : (m.drawing roots).Leads truth d text) :
    text = Scalar.text (m.table.value (m.vars.levelTruth truth) d) := by
  induction h with
  | terminal h =>
    obtain ⟨-, x, hx, htext⟩ := mem_terminals.mp h
    rw [Table.value_terminal hx, htext]
  | @branch rank d target text hrank hbranch hedge _ ih =>
    obtain ⟨level, hrank⟩ := hm.exists_isRank hroots hrank
    obtain ⟨-, level', low, high, hn, htarget⟩ := mem_edges.mp hedge
    have hlevel := ((hrank.mem_iff d).mp hbranch).2
    rw [Table.level?_branch hn] at hlevel
    cases hlevel
    rw [value_of_isRank hrank hn, ← htarget]
    exact ih

theorem leads (hm : m.WellFormed) (hroots : ∀ root ∈ roots, root.1 < m.table.size)
    (hd : m.Draws roots d) (truth : String → Bool) :
    (m.drawing roots).Leads truth d
      (Scalar.text (m.table.value (m.vars.levelTruth truth) d)) := by
  induction d using Nat.strongRecOn with
  | ind d ih =>
    cases hn : m.table.node d with
    | terminal x =>
      rw [Table.value_terminal hn]
      exact .terminal (mem_terminals.mpr ⟨hd, x, hn, rfl⟩)
    | branch level low high =>
      obtain ⟨rank, hmem, hrank, hbranch⟩ := hm.exists_rank hroots hd (Table.level?_branch hn)
      have hchild : m.table.IsChild d (if !truth rank.label then low else high) := by
        refine ⟨level, low, high, hn, ?_⟩
        cases truth rank.label
        · exact .inl rfl
        · exact .inr rfl
      have hedge : ⟨d, if !truth rank.label then low else high, !truth rank.label⟩ ∈
          (m.drawing roots).edges := mem_edges.mpr ⟨hd, level, low, high, hn, rfl⟩
      rw [value_of_isRank hrank hn]
      exact .branch hmem hbranch hedge (ih _ hchild.lt (hd.child hchild))

/-- To follow the edges leads to the text of the value, and to no other. -/
theorem leads_iff (hm : m.WellFormed) (hroots : ∀ root ∈ roots, root.1 < m.table.size)
    {root : Nat × String} (hroot : root ∈ roots) (a : Assignment) (text : String) :
    (m.drawing roots).Leads (m.vars.nameTruth a.truth) root.1 text ↔
      ∃ x, m.value? a root.1 = some x ∧ text = Scalar.text x := by
  have hd : m.Draws roots root.1 := ⟨root, hroot, .refl root.1⟩
  have hvalue := hm.value_nameTruth (hroots root hroot) a.truth
  rw [value?_of_lt (hroots root hroot)]
  constructor
  · intro h
    exact ⟨_, rfl, hvalue ▸ hm.text_of_leads hroots h⟩
  · rintro ⟨x, hx, rfl⟩
    cases hx
    rw [← hvalue]
    exact hm.leads hroots hd _

theorem size?_eq (hd : d < m.table.size) (label : String) :
    m.size? d = some (m.drawing [(d, label)]).nodes.length := by
  have hdrawn : (m.drawn [(d, label)]).Nodup := (ascending_toList _).imp Nat.ne_of_lt
  have hperm : (m.drawing [(d, label)]).nodes.Perm (m.drawn [(d, label)]) :=
    (List.perm_ext_iff_of_nodup nodup_nodes hdrawn).mpr fun r => by rw [mem_nodes, mem_drawn]
  rw [size?, Table.about, if_pos hd, hperm.length_eq, drawn, Std.TreeSet.length_toList]
  rfl

theorem depicts (hm : m.WellFormed) (hroots : ∀ root ∈ roots, root.1 < m.table.size) :
    m.Depicts roots (m.drawing roots) where
  roots_eq := rfl
  nodup_nodes := nodup_nodes
  mem_nodes _ := mem_nodes
  root_mem_nodes {root} hroot := mem_nodes.mpr ⟨root, hroot, .refl root.1⟩
  ranks := ⟨m.drawnLevels roots, ascending_toList _, hm.forall₂_isRank hroots⟩
  mem_terminals _ _ := mem_terminals
  nodup_edges := nodup_edges
  mem_edges _ := mem_edges
  ends_mem_nodes {e} he := by
    obtain ⟨hd, level, low, high, hn, htarget⟩ := mem_edges.mp he
    have hchild : m.table.IsChild e.source e.target := by
      refine ⟨level, low, high, hn, ?_⟩
      cases hdashed : e.dashed <;> simp [htarget, hdashed]
    exact ⟨mem_nodes.mpr hd, mem_nodes.mpr (hd.child hchild)⟩
  size? {d label} h := by
    subst h
    exact size?_eq (hroots _ (List.mem_singleton_self _)) label
  leads_iff hroot a text := hm.leads_iff hroots hroot a text

end WellFormed

/-- Some terminal of the table has the value. -/
def Stores (m : Manager α) (x : α) : Prop :=
  ∃ d, m.contains d = true ∧ m.table.node d = .terminal x

variable {m : Manager α} {roots : List (Nat × String)}

theorem stores_value (truth : Nat → Bool) {d : Nat} (hd : d < m.table.size) :
    m.Stores (m.table.value truth d) := by
  induction d using Nat.strongRecOn with
  | ind d ih =>
    cases hn : m.table.node d with
    | terminal x =>
      rw [Table.value_terminal hn]
      exact ⟨d, decide_eq_true hd, hn⟩
    | branch level low high =>
      obtain ⟨hlow, hhigh⟩ := Table.child_lt hn
      rw [Table.value_branch hn]
      split
      · exact ih high hhigh (hhigh.trans hd)
      · exact ih low hlow (hlow.trans hd)

theorem WellFormed.readable_drawing (hm : m.WellFormed)
    (hroots : ∀ root ∈ roots, root.1 < m.table.size)
    (hplain : ∀ x, m.Stores x → ∀ c ∈ (Scalar.text x).toList, c ≠ '\\' ∧ c ≠ '\"') :
    (m.drawing roots).Readable where
  ranks rank hrank := by
    obtain ⟨level, hrank⟩ := hm.exists_isRank hroots hrank
    exact hrank.ne_nil
  terminals := by
    rintro ⟨d, text⟩ hnode
    obtain ⟨hd, x, hx, rfl⟩ := mem_terminals.mp hnode
    exact hplain x ⟨d, decide_eq_true (hd.lt_size hroots), hx⟩

/-- The drawing of labelled diagrams can be read back from its text, whatever the labels and the
names of variables are, if the texts of stored values need no escapes. If these texts differ where
the values do, to follow the edges from a root evaluates its diagram. -/
theorem dot_determines_diagrams [LawfulScalar α] (hm : m.Reachable)
    (hplain : ∀ x, m.Stores x → ∀ c ∈ (Scalar.text x).toList, c ≠ '\\' ∧ c ≠ '\"')
    (hroots : ∀ root ∈ roots, m.contains root.1 = true) :
    ∃ text g, m.dot? roots = some text ∧ Drawing.read? text = some g ∧ m.Depicts roots g ∧
      ((∀ x y, m.Stores x → m.Stores y → Scalar.text x = Scalar.text y → x = y) →
        ∀ root ∈ roots, ∀ (a : Assignment) (x : α), m.Stores x →
          (g.Leads (m.vars.nameTruth a.truth) root.1 (Scalar.text x) ↔
            m.value? a root.1 = some x)) := by
  have hwell := hm.wellFormed
  have hlt : ∀ root ∈ roots, root.1 < m.table.size := fun root hroot =>
    lt_of_contains (hroots root hroot)
  have hdepicts := hwell.depicts hlt
  refine ⟨(m.drawing roots).dot, m.drawing roots, ?_,
    Drawing.read?_dot (hwell.readable_drawing hlt hplain), hdepicts, ?_⟩
  · rw [dot?, if_pos (List.all_eq_true.mpr hroots)]
  · intro hinjective root hroot a x hx
    rw [hdepicts.leads_iff hroot]
    constructor
    · rintro ⟨y, hy, htext⟩
      have hvalue := value?_of_lt (hlt root hroot) a
      have hstored := stores_value a.truth (hlt root hroot)
      cases hy.symm.trans hvalue
      rw [hinjective x _ hx hstored htext]
      exact hvalue
    · intro hvalue
      exact ⟨x, hvalue, rfl⟩

theorem stores_initial {x : α} (h : (initial : Manager α).Stores x) :
    x = Scalar.zero ∨ x = Scalar.one := by
  obtain ⟨d, hd, hx⟩ := h
  match d, lt_of_contains hd with
  | 0, _ => cases hx; exact .inl rfl
  | 1, _ => cases hx; exact .inr rfl

/-- A variable adds no value. -/
theorem WellFormed.stores_of_indicator [LawfulScalar α] (hm : m.WellFormed) (name : String) {x : α}
    (h : (m.indicator name).2.Stores x) : m.Stores x := by
  obtain ⟨d, hd, hx⟩ := h
  have hputs := hm.puts_indicator name
  rcases Table.lt_size_branch (lt_of_contains hd) with hlt | rfl
  · exact ⟨d, decide_eq_true hlt, (hputs.grows.node hlt).symm.trans hx⟩
  · cases hputs.node.symm.trans hx

/-- The name and the label have quotes and backslashes in them. -/
theorem dot_determines_diagrams_of_indicator :
    let name := "\"p\\"
    let m := ((initial : Manager Float).indicator name).2
    let p := ((initial : Manager Float).indicator name).1
    let roots := [(p, "\"];\n  n0 -> n1;")]
    m.Reachable ∧ ∃ text g, m.dot? roots = some text ∧ Drawing.read? text = some g ∧
      m.Depicts roots g ∧ g.Leads (m.vars.nameTruth (Assignment.truth #[true])) p "1" := by
  intro name m p roots
  have hm : m.Reachable := ⟨[.indicator name], rfl⟩
  have hputs := (initial_wellFormed (α := Float)).puts_indicator name
  have hstores {x : Float} (hx : m.Stores x) : x = Scalar.zero ∨ x = Scalar.one :=
    stores_initial (initial_wellFormed.stores_of_indicator name hx)
  have hzero : Scalar.text (Scalar.zero : Float) = "0" := by decide +kernel
  have hone : Scalar.text (Scalar.one : Float) = "1" := by decide +kernel
  have hplain (x : Float) (hx : m.Stores x) :
      ∀ c ∈ (Scalar.text x).toList, c ≠ '\\' ∧ c ≠ '\"' := by
    rcases hstores hx with rfl | rfl
    · simp [hzero]
    · simp [hone]
  have hroots : ∀ root ∈ roots, m.contains root.1 = true :=
    List.forall_mem_singleton.mpr (decide_eq_true hputs.lt_size)
  have hinjective (x y : Float) (hx : m.Stores x) (hy : m.Stores y)
      (htext : Scalar.text x = Scalar.text y) : x = y := by
    rcases hstores hx with rfl | rfl <;> rcases hstores hy with rfl | rfl
    · rfl
    · simp [hzero, hone] at htext
    · simp [hzero, hone] at htext
    · rfl
  obtain ⟨text, g, hdot, hread, hdepicts, hleads⟩ := dot_determines_diagrams hm hplain hroots
  refine ⟨hm, text, g, hdot, hread, hdepicts, ?_⟩
  rw [← hone]
  refine (hleads hinjective _ (List.mem_singleton_self _) #[true] Scalar.one ?_).mpr ?_
  · exact ⟨Table.one, decide_eq_true hputs.wellFormed.one_lt_size, hputs.wellFormed.node_one⟩
  · have hlevel : ((initial : Manager Float).vars.intern name).1 = 0 := by
      rw [Variables.intern_of_new (by simp [initial, Variables.level?, Variables.none])]
      rfl
    have htrue :
        Assignment.truth #[true] ((initial : Manager Float).vars.intern name).1 = true := by
      rw [hlevel]
      rfl
    rw [value?_of_lt hputs.lt_size, Table.value_branch hputs.node, if_pos htrue,
      Table.value_terminal hputs.wellFormed.node_one]

end Manager

end DecisionDiagrams
