import DecisionDiagrams.Expr.Basic
import DecisionDiagrams.Grammar.SyntaxError
import DecisionDiagrams.Grammar.Token

/-! From tokens to the tree that precedence gives them, by one pass over the tokens with a
stack of what is still open. Operators of equal precedence group from the left. -/
namespace DecisionDiagrams

namespace Symbol

/-- The operator that a symbol stands for where an operand is due. -/
def prefixOperator? : Symbol → Option Operator
  | minus => some .negate
  | bang => some .not
  | _ => none

def infixOperator? : Symbol → Option Operator
  | plus => some .add
  | minus => some .subtract
  | star => some .multiply
  | slash => some .divide
  | ampersands => some .and
  | bars => some .or
  | _ => none

end Symbol

/-- What is open at a point of an expression: a group, or an operator that has all its
operands but the last. -/
inductive Frame (α : Type) where
  | group
  | awaiting (op : Operator) (earlier : List (Expr α))

namespace Frame

variable {α : Type}

def isGroup : Frame α → Bool
  | group => true
  | awaiting _ _ => false

/-- Hands `tree` as last operand to the innermost frames that hold it at least as tightly as
`precedence`, up to the innermost group. -/
def fold (precedence : Nat) : List (Frame α) → Expr α → List (Frame α) × Expr α
  | .awaiting op earlier :: frames, tree =>
    if precedence ≤ op.precedence then fold precedence frames (.apply op (earlier ++ [tree]))
    else (.awaiting op earlier :: frames, tree)
  | frames, tree => (frames, tree)

end Frame

inductive Reading (α : Type) where
  /-- An operand is due. -/
  | before (frames : List (Frame α))
  /-- The operand `tree` is complete unless an operator extends it. -/
  | after (frames : List (Frame α)) (tree : Expr α)

namespace Reading

variable {α : Type}

def start : Reading α := before []

def expected : Reading α → Expected
  | before (.awaiting _ _ :: _) => .operand
  | before _ => .expression
  | after frames _ => if frames.any Frame.isGroup then .operatorInGroup else .operatorOrEnd

def next? : Reading α → Token α → Option (Reading α)
  | before frames, .literal x => some (after frames (.literal x))
  | before frames, .name text => some (after frames (.variable (String.ofList text)))
  | before frames, .symbol s =>
    if s = .opening then some (before (.group :: frames))
    else s.prefixOperator?.map fun op => before (.awaiting op [] :: frames)
  | after frames tree, .symbol s =>
    if s = .closing then
      match Frame.fold 0 frames tree with
      | (.group :: frames, tree) => some (after frames tree)
      | _ => none
    else
      s.infixOperator?.map fun op =>
        let (frames, tree) := Frame.fold op.precedence frames tree
        before (.awaiting op [tree] :: frames)
  | _, _ => none

def tree? : Reading α → Option (Expr α)
  | before _ => none
  | after frames tree =>
    match Frame.fold 0 frames tree with
    | ([], tree) => some tree
    | _ => none

/-- Reads `tokens` to the end of the text at `finish`. -/
def run (finish : Position) (r : Reading α) :
    List (Located (Token α)) → Except SyntaxError (Expr α)
  | [] =>
    match r.tree? with
    | some tree => .ok tree
    | none => .error (.unexpected r.expected finish)
  | token :: tokens =>
    match r.next? token.item with
    | some r => r.run finish tokens
    | none => .error (.unexpected r.expected token.position)

end Reading

/-- The tree of a sequence of tokens, or its first token that cannot continue. -/
def Lexed.tree {α : Type} (l : Lexed α) : Except SyntaxError (Expr α) :=
  Reading.start.run l.finish l.tokens

end DecisionDiagrams
