import DecisionDiagrams.Grammar.Expression
import DecisionDiagrams.Proofs.Grammar.Signs

/-! The pairs of a text as a row of operands and operators, and the names in them. -/
namespace DecisionDiagrams

namespace Pair

def rule : Pair → Rule
  | ⟨r, _, _, _⟩ => r

mutual

/-- What a pair stands for between operators. -/
def operand? : Pair → Option (Operand (Located Numeral))
  | ⟨.literal, p, text, []⟩ => (Numeral.scan? text).map fun n => .literal ⟨p, n.1⟩
  | ⟨.variable, _, text, []⟩ => some (.name text)
  | ⟨.expr, _, _, inner⟩ => (row? inner).map .group
  | _ => none

/-- The pairs within an expression as a row. -/
def row? : List Pair → Option (Row (Operand (Located Numeral)))
  | [] => none
  | ⟨r, p, text, inner⟩ :: pairs =>
    match r.prefixSign? with
    | some sign =>
      if inner.isEmpty then (row? pairs).map fun row => { row with signs := sign :: row.signs }
      else none
    | none => do return ⟨[], ← operand? ⟨r, p, text, inner⟩, ← links? pairs⟩

def links? : List Pair → Option (List (Row.Link (Operand (Located Numeral))))
  | [] => some []
  | ⟨r, _, _, inner⟩ :: pairs => do
    let sign ← r.infixSign?
    if inner.isEmpty then
      (row? pairs).map fun row => ⟨sign, row.signs, row.first⟩ :: row.rest
    else none

end

mutual

def flatten : Pair → List Pair
  | ⟨r, p, text, inner⟩ => ⟨r, p, text, inner⟩ :: flattenAll inner

def flattenAll : List Pair → List Pair
  | [] => []
  | pair :: pairs => flatten pair ++ flattenAll pairs

end

def name? : Pair → Option String
  | ⟨.variable, _, text, _⟩ => some (String.ofList text)
  | _ => none

def names (pairs : List Pair) : List String := (flattenAll pairs).filterMap name?

/-- The row of the expression that comes first. -/
def exprRow? : List Pair → Option (Row (Operand (Located Numeral)))
  | ⟨.expr, _, _, inner⟩ :: _ => row? inner
  | _ => none

theorem names_append (pairs pairs' : List Pair) :
    names (pairs ++ pairs') = names pairs ++ names pairs' := by
  induction pairs with
  | nil => rfl
  | cons pair pairs ih => simp_all [names, flattenAll]

/-- A pair that is no name counts for what is within it. -/
theorem names_cons {r : Rule} {p : Position} {text : List Char} {inner : List Pair}
    (h : name? ⟨r, p, text, inner⟩ = none) (pairs : List Pair) :
    names (⟨r, p, text, inner⟩ :: pairs) = names inner ++ names pairs := by
  rw [names, flattenAll, flatten, List.cons_append, List.filterMap_cons_none h,
    List.filterMap_append]
  rfl

theorem name?_of_symbol? {r : Rule} {s : Symbol} (h : r.symbol? = some s) (p : Position)
    (text : List Char) (inner : List Pair) : name? ⟨r, p, text, inner⟩ = none := by
  cases r <;> cases h <;> rfl

mutual

/-- The names within pairs are those of what they stand for. -/
theorem names_operand : (pair : Pair) → {operand : Operand (Located Numeral)} →
    pair.operand? = some operand → names [pair] = operand.tokens.filterMap Token.name?
  | ⟨.literal, p, text, []⟩, operand, h => by
    obtain ⟨n, -, rfl⟩ := Option.map_eq_some_iff.mp h
    rfl
  | ⟨.variable, p, text, []⟩, operand, h => by
    cases h
    rfl
  | ⟨.expr, p, text, inner⟩, operand, h => by
    obtain ⟨row, hrow, rfl⟩ := Option.map_eq_some_iff.mp h
    rw [names_cons rfl, names_row inner hrow, Operand.tokens, List.filterMap_cons_none rfl,
      List.filterMap_append]
    rfl

theorem names_row : (pairs : List Pair) → {row : Row (Operand (Located Numeral))} →
    row? pairs = some row → names pairs = row.tokens.filterMap Token.name?
  | ⟨r, p, text, inner⟩ :: pairs, row, h => by
    rw [row?] at h
    split at h
    next sign hsign =>
      rw [Option.ite_none_right_eq_some] at h
      obtain ⟨hinner, h⟩ := h
      obtain rfl := List.isEmpty_iff.mp hinner
      obtain ⟨row, hrow, rfl⟩ := Option.map_eq_some_iff.mp h
      have hname := name?_of_symbol? (Rule.prefixRules_signs.symbol? hsign) p text []
      rw [names_cons hname, names_row pairs hrow, Row.tokens_eq, Row.tokens_eq]
      rfl
    next =>
      simp only [Option.bind_eq_bind, Option.bind_eq_some_iff] at h
      obtain ⟨first, hfirst, links, hlinks, ⟨⟩⟩ := h
      rw [← List.singleton_append, names_append, names_operand _ hfirst, names_links pairs hlinks]
      simp [Row.tokens]

theorem names_links : (pairs : List Pair) →
    {links : List (Row.Link (Operand (Located Numeral)))} → links? pairs = some links →
    names pairs = (Row.linkTokens links).filterMap Token.name?
  | [], links, h => by
    cases h
    rfl
  | ⟨r, p, text, inner⟩ :: pairs, links, h => by
    rw [links?] at h
    obtain ⟨sign, hsign, hrest⟩ := Option.bind_eq_some_iff.mp h
    rw [Option.ite_none_right_eq_some] at hrest
    obtain ⟨hinner, hrest⟩ := hrest
    obtain rfl := List.isEmpty_iff.mp hinner
    obtain ⟨row, hrow, rfl⟩ := Option.map_eq_some_iff.mp hrest
    have hname := name?_of_symbol? (Rule.infixRules_signs.symbol? hsign) p text []
    rw [names_cons hname, names_row pairs hrow, Row.tokens_eq, Row.linkTokens]
    rfl

end

/-- The names in a text are those in its expression. -/
theorem names_calculation {p q : Position} {text : List Char} {inner : List Pair}
    {row : Row (Operand (Located Numeral))} (h : row? inner = some row) :
    names [⟨.expr, p, text, inner⟩, ⟨.endOfInput, q, [], []⟩] =
      row.tokens.filterMap Token.name? := by
  rw [names_cons rfl, names_row inner h, names_cons rfl]
  exact List.append_nil _

end Pair

end DecisionDiagrams
