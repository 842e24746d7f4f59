import DecisionDiagrams.Decimal.Numeral
import DecisionDiagrams.Text.Position

/-! Why a text is not an expression, and where. -/
namespace DecisionDiagrams

def maxNesting : Nat := 128

inductive Expected where
  /-- At the start of a text or of a group. -/
  | expression
  /-- After an operator. -/
  | operand
  /-- After an operand within a group. -/
  | operatorInGroup
  /-- After an operand outside of every group. -/
  | operatorOrEnd
  deriving DecidableEq, Repr

/-- The message leaves out what is due after an operand apart from an operator, except for the
end of the text. -/
def Expected.message : Expected → String
  | expression => "expected expr"
  | operand => "expected literal, variable, neg, or not"
  | operatorInGroup => "expected add, subtract, multiply, divide, and, or or"
  | operatorOrEnd => "expected EOI, add, subtract, multiply, divide, and, or or"

inductive SyntaxFault where
  | tooDeep
  | unexpected (due : Expected)
  /-- The type of the literals has no value for the numeral. -/
  | refusedLiteral (numeral : Numeral)
  | other (message : String)
  deriving DecidableEq, Repr

def SyntaxFault.message : SyntaxFault → String
  | tooDeep => "expression nested deeper than " ++ toString maxNesting ++ " levels"
  | unexpected due => due.message
  | refusedLiteral numeral => "unexpected literal: " ++ String.ofList numeral.spelling
  | other message => message

structure SyntaxError where
  fault : SyntaxFault
  position : Option Position
  deriving DecidableEq, Repr

namespace SyntaxError

def unexpected (due : Expected) (p : Position) : SyntaxError := ⟨.unexpected due, some p⟩

def message (e : SyntaxError) : String :=
  e.fault.message ++
    match e.position with
    | some p => " at line " ++ toString p.line ++ ", column " ++ toString p.column
    | none => ""

end SyntaxError

end DecisionDiagrams
