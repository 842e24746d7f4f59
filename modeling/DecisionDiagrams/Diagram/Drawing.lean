import DecisionDiagrams.Diagram.Manager

/-! Drawings of diagrams, as graphs in the DOT language. Roots are boxes, branches are circles in
one rank for each level, and terminals are squares. The edge to the high child is solid and the
edge to the low child is dashed. -/
namespace DecisionDiagrams

structure Rank where
  label : String
  branches : List Nat
  deriving Repr

structure Edge where
  source : Nat
  target : Nat
  dashed : Bool
  deriving Repr

structure Drawing where
  roots : List (Nat × String)
  ranks : List Rank
  terminals : List (Nat × String)
  edges : List Edge
  deriving Repr

namespace Drawing

def escapeChar (c : Char) : List Char := if c = '\\' || c = '\"' then ['\\', c] else [c]

/-- A label as it is written between quotes. -/
def escape (label : String) : String := String.ofList (label.toList.flatMap escapeChar)

def nodeName (d : Nat) : String := "n" ++ toString d

def rootName (i : Nat) : String := "r" ++ toString i

def shapeLine (name shape text : String) : String :=
  "    " ++ name ++ " [shape=" ++ shape ++ ", label=\"" ++ text ++ "\"];"

def rootLines (i : Nat) (root : Nat × String) : List String :=
  [shapeLine (rootName i) "box" (escape root.2),
    "    " ++ rootName i ++ " -> " ++ nodeName root.1 ++ ";"]

def branchLines (rank : Rank) : List String :=
  rank.branches.map fun d => shapeLine (nodeName d) "circle" (escape rank.label)

def terminalLine (node : Nat × String) : String := shapeLine (nodeName node.1) "square" node.2

def edgeLine (e : Edge) : String :=
  "  " ++ nodeName e.source ++ " -> " ++ nodeName e.target ++
    (if e.dashed then " [style=dashed];" else ";")

def rankLines (kind : String) (lines : List String) : List String :=
  ("  \x7b rank = " ++ kind ++ ";") :: (lines ++ ["  \x7d"])

def lines (g : Drawing) : List String :=
  ["digraph \x7b"] ++
    rankLines "source" (g.roots.mapIdx rootLines).flatten ++
    (g.ranks.flatMap fun rank => rankLines "same" (branchLines rank)) ++
    rankLines "sink" (g.terminals.map terminalLine) ++
    g.edges.map edgeLine ++
    ["\x7d"]

def dot (g : Drawing) : String := String.join (g.lines.map (· ++ "\n"))

end Drawing

namespace Manager

variable {α : Type} [Scalar α]

def branchLevel? (m : Manager α) (d : Nat) : Option Nat :=
  match m.table.node d with
  | .terminal _ => none
  | .branch level _ _ => some level

def terminalText? (m : Manager α) (d : Nat) : Option String :=
  match m.table.node d with
  | .terminal x => some (Scalar.text x)
  | .branch _ _ _ => none

def edges (m : Manager α) (d : Nat) : List Edge :=
  match m.table.node d with
  | .terminal _ => []
  | .branch _ low high => [⟨d, high, false⟩, ⟨d, low, true⟩]

/-- The drawing of labelled diagrams. Levels, and the nodes of a level, are in ascending order. -/
def drawing (m : Manager α) (roots : List (Nat × String)) : Drawing :=
  let nodes := (m.table.reachable (roots.map Prod.fst)).toList
  let levels := (Std.TreeSet.ofList (nodes.filterMap m.branchLevel?)).toList
  let onLevel level := nodes.filter fun d => m.branchLevel? d = some level
  { roots
    ranks := levels.map fun level => ⟨(m.vars.name? level).getD "", onLevel level⟩
    terminals := nodes.filterMap fun d => (m.terminalText? d).map (d, ·)
    edges := levels.flatMap fun level => (onLevel level).flatMap m.edges }

def dot? (m : Manager α) (roots : List (Nat × String)) : Option String :=
  if roots.all fun root => m.contains root.1 then some (m.drawing roots).dot else none

end Manager

end DecisionDiagrams
