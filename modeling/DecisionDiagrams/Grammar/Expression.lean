import DecisionDiagrams.Grammar.Nesting
import DecisionDiagrams.Grammar.Tree
import DecisionDiagrams.Scalar.Basic

/-! Reading a text as an expression. Too deep a nesting is reported first, then the first token
that cannot continue, and last the leftmost literal that the literals' type refuses. -/
namespace DecisionDiagrams

namespace Token

variable {α : Type}

def value (ofNumeral? : Numeral → Option α) (t : Located (Token Numeral)) :
    Except SyntaxError (Located (Token α)) :=
  match t.item with
  | .literal n =>
    match ofNumeral? n with
    | some x => .ok ⟨t.position, .literal x⟩
    | none => .error ⟨.refusedLiteral n, some t.position⟩
  | .name text => .ok ⟨t.position, .name text⟩
  | .symbol s => .ok ⟨t.position, .symbol s⟩
  | .stray c => .ok ⟨t.position, .stray c⟩

def name? : Token α → Option String
  | .name text => some (String.ofList text)
  | _ => none

end Token

/-- Gives all literals their values, from left to right. -/
def Lexed.values {α : Type} (ofNumeral? : Numeral → Option α) (l : Lexed Numeral) :
    Except SyntaxError (Lexed α) := do
  let tokens ← l.tokens.mapM (Token.value ofNumeral?)
  return ⟨tokens, l.finish⟩

/-- The tokens of an expression, with the literals as they are written. -/
def grammatical (text : String) : Except SyntaxError (Lexed Numeral) :=
  match Nesting.start.tooDeepAt? Position.start text.toList with
  | some p => .error ⟨.tooDeep, some p⟩
  | none => do
    let l := lex text
    let _ ← l.tree
    return l

def parseWith {α : Type} (ofNumeral? : Numeral → Option α) (text : String) :
    Except SyntaxError (Expr α) := do
  let l ← grammatical text
  let l ← l.values ofNumeral?
  l.tree

def parse {α : Type} [Scalar α] (text : String) : Except SyntaxError (Expr α) :=
  parseWith Scalar.ofNumeral? text

/-- The names in a text, in ascending order, whatever its literals. -/
def parseNames (text : String) : Except SyntaxError (Std.TreeSet String) := do
  let l ← grammatical text
  return .ofList (l.tokens.filterMap fun t => t.item.name?)

end DecisionDiagrams
