import DecisionDiagrams.Diagram.Drawing
import DecisionDiagrams.Proofs.Decimal.Numeral
import Mathlib.Data.List.Basic

/-! A reader of drawings. A label is between quotes, and ends at the first quote that is not behind
a backslash, whatever else is in it. So the text of a drawing can be read back, if the texts of its
terminals have neither quotes nor backslashes in them. -/
namespace DecisionDiagrams

namespace Drawing

def skip (text : String) (cs : List Char) : Option (List Char) := cs.dropPrefix? text.toList

def readNumber (cs : List Char) : Option (Nat × List Char) :=
  let digits := cs.takeWhile Char.isDigit
  if digits = [] then none else some (Nat.ofDigitChars 10 digits 0, cs.dropWhile Char.isDigit)

/-- What is in front of the closing quote. A backslash is left out, and keeps the character behind
it. -/
def readLabel : List Char → Option (List Char × List Char)
  | [] => none
  | '\"' :: cs => some ([], cs)
  | '\\' :: c :: cs => (readLabel cs).map fun (label, rest) => (c :: label, rest)
  | c :: cs => (readLabel cs).map fun (label, rest) => (c :: label, rest)

/-- Reads items as long as there is one at the front. -/
def readMany {β : Type} (item : List Char → Option (β × List Char)) (cs : List Char) :
    List β × List Char :=
  match item cs with
  | none => ([], cs)
  | some (x, rest) =>
    if rest.length < cs.length then
      let (xs, rest) := readMany item rest
      (x :: xs, rest)
    else ([], cs)
termination_by cs.length

/-- The number and the label of a node whose name begins with this letter. -/
def readShape (letter shape : String) (cs : List Char) : Option ((Nat × String) × List Char) := do
  let cs ← skip ("    " ++ letter) cs
  let (d, cs) ← readNumber cs
  let cs ← skip (" [shape=" ++ shape ++ ", label=\"") cs
  let (label, cs) ← readLabel cs
  let cs ← skip "];\n" cs
  return ((d, String.ofList label), cs)

def readRoot (cs : List Char) : Option ((Nat × String) × List Char) := do
  let ((i, label), cs) ← readShape "r" "box" cs
  let cs ← skip "    r" cs
  let (i', cs) ← readNumber cs
  let cs ← skip " -> n" cs
  let (d, cs) ← readNumber cs
  let cs ← skip ";\n" cs
  if i = i' then some ((d, label), cs) else none

/-- All branches of a rank have its label. -/
def readRank (cs : List Char) : Option (Rank × List Char) := do
  let cs ← skip "  \x7b rank = same;\n" cs
  let (nodes, cs) := readMany (readShape "n" "circle") cs
  let cs ← skip "  \x7d\n" cs
  match nodes with
  | [] => none
  | (_, label) :: _ =>
    if nodes.all fun node => node.2 = label then some (⟨label, nodes.map Prod.fst⟩, cs) else none

/-- The end of an edge, which tells whether it is dashed. -/
def readStyle (cs : List Char) : Option (Bool × List Char) :=
  match skip " [style=dashed];\n" cs with
  | some cs => some (true, cs)
  | none => (skip ";\n" cs).map fun cs => (false, cs)

def readEdge (cs : List Char) : Option (Edge × List Char) := do
  let cs ← skip "  n" cs
  let (source, cs) ← readNumber cs
  let cs ← skip " -> n" cs
  let (target, cs) ← readNumber cs
  let (dashed, cs) ← readStyle cs
  return (⟨source, target, dashed⟩, cs)

def read? (text : String) : Option Drawing := do
  let cs ← skip "digraph \x7b\n  \x7b rank = source;\n" text.toList
  let (roots, cs) := readMany readRoot cs
  let cs ← skip "  \x7d\n" cs
  let (ranks, cs) := readMany readRank cs
  let cs ← skip "  \x7b rank = sink;\n" cs
  let (terminals, cs) := readMany (readShape "n" "square") cs
  let cs ← skip "  \x7d\n" cs
  let (edges, cs) := readMany readEdge cs
  if cs = "\x7d\n".toList then some ⟨roots, ranks, terminals, edges⟩ else none

variable {cs rest : List Char}

theorem skip_append (text : String) (cs : List Char) : skip text (text.toList ++ cs) = some cs :=
  List.dropPrefix?_eq_some_iff.mpr ⟨text.toList, rfl, beq_self_eq_true _⟩

/-- A number is read up to the first character that is no digit. -/
theorem readNumber_append (n : Nat) (h : ∀ c ∈ rest.head?, c.isDigit = false) :
    readNumber ((toString n).toList ++ rest) = some (n, rest) := by
  have hdigits : (toString n).toList = Nat.toDigits 10 n := Nat.toList_repr
  have hall : ∀ c ∈ Nat.toDigits 10 n, c.isDigit = true := fun c hc =>
    Nat.isDigit_of_mem_toDigits (by decide) (by decide) hc
  obtain ⟨htake, hdrop⟩ := span_append hall rest h
  simp only [hdigits, readNumber, htake, hdrop, Nat.toDigits_ne_nil, if_false,
    Nat.ofDigitChars_ten_toDigits]

/-- A character is read as it is, unless it is a quote or a backslash. -/
theorem readLabel_cons {c : Char} (h : c ≠ '\\') (h' : c ≠ '\"') (cs : List Char) :
    readLabel (c :: cs) = (readLabel cs).map fun (label, rest) => (c :: label, rest) := by
  rw [readLabel]
  case x_1 => exact fun heq => h' heq
  case x_2 => exact fun _ _ heq _ => h heq

/-- An escaped label ends at the closing quote. -/
theorem readLabel_escape (label rest : List Char) :
    readLabel (label.flatMap escapeChar ++ '\"' :: rest) = some (label, rest) := by
  induction label with
  | nil => rfl
  | cons c label ih =>
    rw [List.flatMap_cons, List.append_assoc]
    by_cases hc : c = '\\' ∨ c = '\"'
    · have hescape : escapeChar c = ['\\', c] := by rcases hc with rfl | rfl <;> rfl
      rw [hescape, List.cons_append, List.cons_append, List.nil_append, readLabel, ih]
      rfl
    · obtain ⟨hbackslash, hquote⟩ := not_or.mp hc
      have hescape : escapeChar c = [c] := by simp [escapeChar, hbackslash, hquote]
      rw [hescape, List.cons_append, List.nil_append, readLabel_cons hbackslash hquote, ih]
      rfl

/-- A text that needs no escapes is written as it is. -/
theorem escape_eq_self {text : String} (h : ∀ c ∈ text.toList, c ≠ '\\' ∧ c ≠ '\"') :
    escape text = text := by
  have hescape : text.toList.flatMap escapeChar = text.toList.flatMap fun c => [c] := by
    rw [List.flatMap_def, List.flatMap_def]
    congr 1
    apply List.map_congr_left
    intro c hc
    simp [escapeChar, h c hc]
  rw [escape, hescape, List.flatMap_singleton', String.ofList_toList]

def characters (lines : List String) : List Char := lines.flatMap fun line => line.toList ++ ['\n']

theorem toList_dot (g : Drawing) : g.dot.toList = characters g.lines := by
  simp [dot, characters, String.toList_join, List.flatMap_map]

@[simp] theorem characters_nil : characters [] = [] := rfl

@[simp] theorem characters_cons (line : String) (lines : List String) :
    characters (line :: lines) = line.toList ++ '\n' :: characters lines := by
  simp [characters]

@[simp] theorem characters_append (lines lines' : List String) :
    characters (lines ++ lines') = characters lines ++ characters lines' := List.flatMap_append

theorem readShape_append (letter shape : String) (d : Nat) (label : String) (rest : List Char) :
    readShape letter shape
      (characters [shapeLine (letter ++ toString d) shape (escape label)] ++ rest) =
        some ((d, label), rest) := by
  have hline : characters [shapeLine (letter ++ toString d) shape (escape label)] ++ rest =
      ("    " ++ letter).toList ++ ((toString d).toList ++
        ((" [shape=" ++ shape ++ ", label=\"").toList ++
          (label.toList.flatMap escapeChar ++ '\"' :: ("];\n".toList ++ rest)))) := by
    simp [shapeLine, escape]
  rw [hline, readShape, skip_append]
  simp only [Option.bind_eq_bind, Option.bind_some]
  rw [readNumber_append d (by simp)]
  simp only [Option.bind_some]
  rw [skip_append, Option.bind_some, readLabel_escape, Option.bind_some, skip_append]
  simp

theorem readRoot_append (i : Nat) (root : Nat × String) (rest : List Char) :
    readRoot (characters (rootLines i root) ++ rest) = some (root, rest) := by
  have hlines : characters (rootLines i root) ++ rest =
      characters [shapeLine ("r" ++ toString i) "box" (escape root.2)] ++
        ("    r".toList ++ ((toString i).toList ++
          (" -> n".toList ++ ((toString root.1).toList ++ (";\n".toList ++ rest))))) := by
    simp [rootLines, rootName, nodeName]
  rw [hlines, readRoot, readShape_append]
  simp only [Option.bind_eq_bind, Option.bind_some]
  rw [skip_append, Option.bind_some, readNumber_append i (by simp), Option.bind_some, skip_append,
    Option.bind_some, readNumber_append root.1 (by simp), Option.bind_some, skip_append]
  simp

theorem readStyle_append (dashed : Bool) (rest : List Char) :
    readStyle ((if dashed then " [style=dashed];\n" else ";\n").toList ++ rest) =
      some (dashed, rest) := by
  cases dashed with
  | false =>
    have hsolid : skip " [style=dashed];\n" (";\n".toList ++ rest) = none := by
      simp [skip, List.dropPrefix?]
    rw [readStyle, if_neg Bool.false_ne_true, hsolid, skip_append]
    rfl
  | true => rw [readStyle, if_pos rfl, skip_append]

theorem readEdge_append (e : Edge) (rest : List Char) :
    readEdge (characters [edgeLine e] ++ rest) = some (e, rest) := by
  have hline : characters [edgeLine e] ++ rest =
      "  n".toList ++ ((toString e.source).toList ++
        (" -> n".toList ++ ((toString e.target).toList ++
          ((if e.dashed then " [style=dashed];\n" else ";\n").toList ++ rest)))) := by
    cases hdashed : e.dashed <;> simp [edgeLine, nodeName, hdashed]
  have hend : ∀ c ∈ ((if e.dashed then " [style=dashed];\n" else ";\n").toList ++ rest).head?,
      c.isDigit = false := by
    cases e.dashed <;> simp
  rw [hline, readEdge, skip_append]
  simp only [Option.bind_eq_bind, Option.bind_some]
  rw [readNumber_append e.source (by simp), Option.bind_some, skip_append, Option.bind_some,
    readNumber_append e.target hend, Option.bind_some, readStyle_append]
  rfl

section Many

variable {β γ : Type} {item : List Char → Option (β × List Char)} {print : γ → List Char}
  {value : γ → β}

/-- Items are read back if each of them is, and if there is none behind them. -/
theorem readMany_append (xs : List γ) (hne : ∀ x ∈ xs, print x ≠ [])
    (hitem : ∀ x ∈ xs, ∀ rest, item (print x ++ rest) = some (value x, rest))
    (hstop : item rest = none) :
    readMany item (xs.flatMap print ++ rest) = (xs.map value, rest) := by
  induction xs with
  | nil => rw [List.flatMap_nil, List.nil_append, readMany, hstop, List.map_nil]
  | cons x xs ih =>
    obtain ⟨hx, hxs⟩ := List.forall_mem_cons.mp hne
    obtain ⟨hitem, hitems⟩ := List.forall_mem_cons.mp hitem
    have hlength : (xs.flatMap print ++ rest).length <
        (print x ++ (xs.flatMap print ++ rest)).length := by
      have := List.length_pos_iff.mpr hx
      simp only [List.length_append]
      omega
    rw [List.flatMap_cons, List.append_assoc, readMany, hitem]
    simp only [if_pos hlength, ih hxs hitems, List.map_cons]

end Many

theorem characters_map {β : Type} (line : β → String) (xs : List β) :
    characters (xs.map line) = xs.flatMap fun x => characters [line x] := by
  simp [characters, List.flatMap_map]

theorem characters_flatMap {β : Type} (lines : β → List String) (xs : List β) :
    characters (xs.flatMap lines) = xs.flatMap fun x => characters (lines x) := by
  simp [characters, List.flatMap_assoc]

section Parts

variable (rest)

theorem readShape_stop (letter shape : String) :
    readShape letter shape ("  \x7d\n".toList ++ rest) = none := by
  simp [readShape, skip, List.dropPrefix?]

theorem readRoots_append (roots : List (Nat × String)) :
    readMany readRoot ((roots.zipIdx.flatMap fun root => characters (rootLines root.2 root.1)) ++
      ("  \x7d\n".toList ++ rest)) = (roots, "  \x7d\n".toList ++ rest) := by
  have hstop : readRoot ("  \x7d\n".toList ++ rest) = none := by
    rw [readRoot, readShape_stop]
    rfl
  rw [readMany_append roots.zipIdx (fun root _ => by simp [rootLines])
    (fun root _ => readRoot_append root.2 root.1) hstop, List.zipIdx_map_fst]

theorem readRank_append {rank : Rank} (h : rank.branches ≠ []) :
    readRank (characters (rankLines "same" (branchLines rank)) ++ rest) = some (rank, rest) := by
  have hlines : characters (rankLines "same" (branchLines rank)) ++ rest =
        "  \x7b rank = same;\n".toList ++ ((rank.branches.flatMap fun d =>
          characters [shapeLine ("n" ++ toString d) "circle" (escape rank.label)]) ++
            ("  \x7d\n".toList ++ rest)) := by
    simp [rankLines, branchLines, characters_map, nodeName]
  have hmany := readMany_append rank.branches (fun d _ => by simp)
    (fun d _ => readShape_append "n" "circle" d rank.label) (readShape_stop rest "n" "circle")
  rw [hlines, readRank, skip_append]
  simp only [Option.bind_eq_bind, Option.bind_some, hmany, skip_append]
  obtain ⟨label, _ | ⟨d, branches⟩⟩ := rank
  · exact absurd rfl h
  · simp [Function.comp_def]

theorem readRanks_append {ranks : List Rank} (h : ∀ rank ∈ ranks, rank.branches ≠ []) :
    readMany readRank
      ((ranks.flatMap fun rank => characters (rankLines "same" (branchLines rank))) ++
        ("  \x7b rank = sink;\n".toList ++ rest)) =
      (ranks, "  \x7b rank = sink;\n".toList ++ rest) := by
  have hstop : readRank ("  \x7b rank = sink;\n".toList ++ rest) = none := by
    simp [readRank, skip, List.dropPrefix?]
  rw [readMany_append ranks (fun rank _ => by simp [rankLines])
    (fun rank hrank rest => readRank_append rest (h rank hrank)) hstop, List.map_id']

theorem readTerminals_append {terminals : List (Nat × String)}
    (h : ∀ node ∈ terminals, ∀ c ∈ node.2.toList, c ≠ '\\' ∧ c ≠ '\"') :
    readMany (readShape "n" "square")
      ((terminals.flatMap fun node => characters [terminalLine node]) ++
        ("  \x7d\n".toList ++ rest)) =
      (terminals, "  \x7d\n".toList ++ rest) := by
  have hitem (node : Nat × String) (hnode : node ∈ terminals) (rest : List Char) :
      readShape "n" "square" (characters [terminalLine node] ++ rest) = some (node, rest) := by
    rw [terminalLine, ← escape_eq_self (h node hnode), nodeName, readShape_append]
  rw [readMany_append terminals (fun node _ => by simp) hitem (readShape_stop rest "n" "square"),
    List.map_id']

theorem readEdges_append (edges : List Edge) :
    readMany readEdge ((edges.flatMap fun e => characters [edgeLine e]) ++ "\x7d\n".toList) =
      (edges, "\x7d\n".toList) := by
  have hstop : readEdge "\x7d\n".toList = none := by
    simp [readEdge, skip, List.dropPrefix?]
  rw [readMany_append edges (fun e _ => by simp) (fun e _ => readEdge_append e) hstop, List.map_id']

end Parts

structure Readable (g : Drawing) : Prop where
  ranks : ∀ rank ∈ g.ranks, rank.branches ≠ []
  terminals : ∀ node ∈ g.terminals, ∀ c ∈ node.2.toList, c ≠ '\\' ∧ c ≠ '\"'

theorem characters_lines (g : Drawing) :
    characters g.lines =
      "digraph \x7b\n  \x7b rank = source;\n".toList ++
        ((g.roots.zipIdx.flatMap fun root => characters (rootLines root.2 root.1)) ++
          ("  \x7d\n".toList ++
            ((g.ranks.flatMap fun rank => characters (rankLines "same" (branchLines rank))) ++
              ("  \x7b rank = sink;\n".toList ++
                ((g.terminals.flatMap fun node => characters [terminalLine node]) ++
                  ("  \x7d\n".toList ++
                    ((g.edges.flatMap fun e => characters [edgeLine e]) ++
                      "\x7d\n".toList))))))) := by
  simp [lines, rankLines, characters_map, characters_flatMap, List.mapIdx_eq_zipIdx_map,
    ← List.flatMap_def]

/-- The text of a drawing is read back as the drawing. -/
theorem read?_dot {g : Drawing} (hg : g.Readable) : read? g.dot = some g := by
  rw [read?, toList_dot, characters_lines, skip_append]
  simp only [Option.bind_eq_bind, Option.bind_some, readRoots_append, skip_append,
    readRanks_append _ hg.ranks, readTerminals_append _ hg.terminals, readEdges_append, if_true]

end Drawing

end DecisionDiagrams
