import DecisionDiagrams.Grammar.Token
import Mathlib.Data.Prod.Lex
import Mathlib.Order.Lattice

/-! The grammar of expressions as rules. Choices are tried in order, repetitions go on as long as
they can, and separators may stand between the parts of a rule. A message names the rules that
failed at the furthest place of a text. -/
namespace DecisionDiagrams

namespace Position

/-- A place in a later line is further, and so is one in a later column of the same line. -/
instance : LinearOrder Position :=
  LinearOrder.lift' (fun p => toLex (p.line, p.column)) fun p q h => by
    cases p
    cases q
    cases h
    rfl

theorem lt_iff {p q : Position} :
    p < q ↔ p.line < q.line ∨ p.line = q.line ∧ p.column < q.column :=
  Prod.Lex.toLex_lt_toLex

theorem lt_after (p : Position) (c : Char) : p < p.after c := by
  rw [lt_iff, after]
  split
  · exact .inl (Nat.lt_succ_self _)
  · exact .inr ⟨rfl, Nat.lt_succ_self _⟩

theorem le_afterAll (p : Position) (cs : List Char) : p ≤ p.afterAll cs := by
  induction cs generalizing p with
  | nil => exact le_rfl
  | cons c cs ih => exact (p.lt_after c).le.trans (ih _)

theorem lt_afterAll (p : Position) {cs : List Char} (h : cs ≠ []) : p < p.afterAll cs := by
  cases cs with
  | nil => exact absurd rfl h
  | cons c cs => exact (p.lt_after c).trans_le ((p.after c).le_afterAll cs)

end Position

/-- The rules of the grammar, in the order in which messages name them. -/
inductive Rule where
  | endOfInput
  | calculation
  | expr
  | primary
  | literal
  | variable
  | prefixSign
  | neg
  | not
  | infixSign
  | add
  | subtract
  | multiply
  | divide
  | and
  | or
  deriving DecidableEq, Repr

inductive Terminal where
  | one (accepts : Char → Bool)
  | word (cs : List Char)
  | start
  | finish

inductive Peg where
  | terminal (t : Terminal)
  | seq (e f : Peg)
  | alt (e f : Peg)
  /-- As many rounds as can be made. `again` says that one has been made. -/
  | rounds (again : Bool) (e : Peg)
  | call (r : Rule)

namespace Peg

def one (accepts : Char → Bool) : Peg := .terminal (.one accepts)

def word (cs : List Char) : Peg := .terminal (.word cs)

def opt (e : Peg) : Peg := .alt e (word [])

def star (e : Peg) : Peg := .rounds false e

def plus (e : Peg) : Peg := .seq e (star e)

def oneOf (r : Rule) : List Rule → Peg
  | [] => .call r
  | r' :: rs => .alt (.call r) (oneOf r' rs)

def digits : Peg := plus (one Char.isDigit)

def mantissa : Peg :=
  .alt (.seq digits (opt (.seq (word ['.']) (star (one Char.isDigit))))) (.seq (word ['.']) digits)

def exponent : Peg :=
  .seq (one fun c => c = 'e' || c = 'E') (.seq (opt (.alt (word ['+']) (word ['-']))) digits)

def group : Peg := .seq (word ['(']) (.seq (.call .expr) (word [')']))

def operand : Peg := .seq (star (.call .prefixSign)) (.call .primary)

end Peg

namespace Rule

open Peg

def name : Rule → String
  | .endOfInput => "EOI"
  | .calculation => "calculation"
  | .expr => "expr"
  | .primary => "primary"
  | .literal => "literal"
  | .variable => "variable"
  | .prefixSign => "prefix"
  | .neg => "neg"
  | .not => "not"
  | .infixSign => "infix"
  | .add => "add"
  | .subtract => "subtract"
  | .multiply => "multiply"
  | .divide => "divide"
  | .and => "and"
  | .or => "or"

/-- A silent rule leaves no trace of its own. -/
def isSilent : Rule → Bool
  | .calculation | .primary | .prefixSign | .infixSign => true
  | _ => false

/-- No separators stand within an atomic rule, and it is tried as a whole. -/
def isAtomic : Rule → Bool
  | .literal | .variable => true
  | _ => false

def body : Rule → Peg
  | .endOfInput => .terminal .finish
  | .calculation => .seq (.terminal .start) (.seq (.call .expr) (.call .endOfInput))
  | .expr => .seq operand (star (.seq (.call .infixSign) operand))
  | .primary => .alt (.call .literal) (.alt (.call .variable) group)
  | .literal => .seq mantissa (opt exponent)
  | .variable => .seq (one isNameStart) (star (one isNameChar))
  | .prefixSign => oneOf .neg [.not]
  | .neg => word ['-']
  | .not => word ['!']
  | .infixSign => oneOf .add [.subtract, .multiply, .divide, .and, .or]
  | .add => word ['+']
  | .subtract => word ['-']
  | .multiply => word ['*']
  | .divide => word ['/']
  | .and => word ['&', '&']
  | .or => word ['|', '|']

end Rule

inductive Pair where
  | mk (rule : Rule) (position : Position) (text : List Char) (inner : List Pair)

/-- The furthest place where a rule failed, and the rules that failed there. -/
structure Attempts where
  position : Position
  rules : List Rule

def Rule.all : List Rule :=
  [.endOfInput, .calculation, .expr, .primary, .literal, .variable, .prefixSign, .neg, .not,
    .infixSign, .add, .subtract, .multiply, .divide, .and, .or]

def enumeration : List String → String
  | [] => ""
  | [a] => a
  | [a, b] => a ++ " or " ++ b
  | names => ", ".intercalate names.dropLast ++ ", or " ++ names.getLast?.getD ""

namespace Attempts

/-- The rules are named in their order, and each one once. -/
def message (a : Attempts) : String :=
  "expected " ++ enumeration ((Rule.all.filter (· ∈ a.rules)).map Rule.name)

def rulesAt (a : Attempts) (p : Position) : List Rule := if a.position = p then a.rules else []

/-- Adds to `new` that `r` failed at `p`, where `old` was known. A rule stands for the rules within
it that failed at the same place, unless that was one alone. -/
def record (old new : Attempts) (p : Position) (r : Rule) : Attempts :=
  if (new.rulesAt p).length = (old.rulesAt p).length + 1 then new
  else if new.position = p then ⟨p, new.rules.take (old.rulesAt p).length ++ [r]⟩
  else if new.position < p then ⟨p, [r]⟩
  else new

end Attempts

structure State where
  position : Position
  rest : List Char
  attempts : Attempts

namespace State

def start (text : String) : State := ⟨.start, text.toList, ⟨.start, []⟩⟩

def consume (s : State) (cs : List Char) : State :=
  ⟨s.position.afterAll cs, s.rest.drop cs.length, s.attempts⟩

def skip (s : State) : State :=
  ⟨s.position.afterAll (s.rest.takeWhile isSeparator), s.rest.dropWhile isSeparator, s.attempts⟩

def skipIf (s : State) (allowed : Bool) : State := if allowed then s.skip else s

end State

def Terminal.consumed? (s : State) : Terminal → Option (List Char)
  | one accepts => (s.rest.head?.filter accepts).map fun c => [c]
  | word cs => if cs <+: s.rest then some cs else none
  | start => if s.position = Position.start then some [] else none
  | finish => if s.rest = [] then some [] else none

inductive Outcome where
  | matched (s : State) (pairs : List Pair)
  | failed (attempts : Attempts)

/-- A rule that was matched from `s` to `s'` leaves a pair for itself, with those within. -/
def Rule.pairs (r : Rule) (atomic : Bool) (s s' : State) (inner : List Pair) : List Pair :=
  if r.isSilent || atomic then inner
  else [⟨r, s.position, s.rest.take (s.rest.length - s'.rest.length), inner⟩]

def Rule.attempts (r : Rule) (atomic : Bool) (s : State) (a : Attempts) : Attempts :=
  if r.isSilent || atomic then a else s.attempts.record a s.position r

inductive Runs : Bool → Peg → State → Outcome → Prop where
  | terminal {atomic : Bool} {t : Terminal} {s : State} {cs : List Char}
      (h : t.consumed? s = some cs) : Runs atomic (.terminal t) s (.matched (s.consume cs) [])
  | terminal_failed {atomic : Bool} {t : Terminal} {s : State} (h : t.consumed? s = none) :
      Runs atomic (.terminal t) s (.failed s.attempts)
  | seq {atomic : Bool} {e f : Peg} {s s₁ s₂ : State} {ps qs : List Pair}
      (he : Runs atomic e s (.matched s₁ ps))
      (hf : Runs atomic f (s₁.skipIf !atomic) (.matched s₂ qs)) :
      Runs atomic (.seq e f) s (.matched s₂ (ps ++ qs))
  | seq_first_failed {atomic : Bool} {e f : Peg} {s : State} {a : Attempts}
      (he : Runs atomic e s (.failed a)) : Runs atomic (.seq e f) s (.failed a)
  | seq_second_failed {atomic : Bool} {e f : Peg} {s s₁ : State} {ps : List Pair} {a : Attempts}
      (he : Runs atomic e s (.matched s₁ ps))
      (hf : Runs atomic f (s₁.skipIf !atomic) (.failed a)) : Runs atomic (.seq e f) s (.failed a)
  | alt_first {atomic : Bool} {e f : Peg} {s s' : State} {ps : List Pair}
      (he : Runs atomic e s (.matched s' ps)) : Runs atomic (.alt e f) s (.matched s' ps)
  | alt_second {atomic : Bool} {e f : Peg} {s : State} {a : Attempts} {o : Outcome}
      (he : Runs atomic e s (.failed a)) (hf : Runs atomic f { s with attempts := a } o) :
      Runs atomic (.alt e f) s o
  | rounds_end {atomic again : Bool} {e : Peg} {s : State} {a : Attempts}
      (he : Runs atomic e (s.skipIf (again && !atomic)) (.failed a)) :
      Runs atomic (.rounds again e) s (.matched { s with attempts := a } [])
  | rounds_next {atomic again : Bool} {e : Peg} {s s₁ s₂ : State} {ps qs : List Pair}
      (he : Runs atomic e (s.skipIf (again && !atomic)) (.matched s₁ ps))
      (hmore : Runs atomic (.rounds true e) s₁ (.matched s₂ qs)) :
      Runs atomic (.rounds again e) s (.matched s₂ (ps ++ qs))
  | call {atomic : Bool} {r : Rule} {s s' : State} {ps : List Pair}
      (h : Runs (atomic || r.isAtomic) r.body s (.matched s' ps)) :
      Runs atomic (.call r) s (.matched s' (r.pairs atomic s s' ps))
  | call_failed {atomic : Bool} {r : Rule} {s : State} {a : Attempts}
      (h : Runs (atomic || r.isAtomic) r.body s (.failed a)) :
      Runs atomic (.call r) s (.failed (r.attempts atomic s a))

/-- A parsing expression ends in one way only. -/
theorem Runs.unique {atomic : Bool} {e : Peg} {s : State} {o o' : Outcome} (h : Runs atomic e s o)
    (h' : Runs atomic e s o') : o = o' := by
  induction h generalizing o' with
  | terminal ht =>
    cases h' with
    | terminal ht' => cases ht.symm.trans ht'; rfl
    | terminal_failed ht' => cases ht.symm.trans ht'
  | terminal_failed ht =>
    cases h' with
    | terminal ht' => cases ht.symm.trans ht'
    | terminal_failed ht' => rfl
  | seq he hf ihe ihf =>
    cases h' with
    | seq he' hf' => cases ihe he'; cases ihf hf'; rfl
    | seq_first_failed he' => cases ihe he'
    | seq_second_failed he' hf' => cases ihe he'; cases ihf hf'
  | seq_first_failed he ih =>
    cases h' with
    | seq he' hf' => cases ih he'
    | seq_first_failed he' => cases ih he'; rfl
    | seq_second_failed he' hf' => cases ih he'
  | seq_second_failed he hf ihe ihf =>
    cases h' with
    | seq he' hf' => cases ihe he'; cases ihf hf'
    | seq_first_failed he' => cases ihe he'
    | seq_second_failed he' hf' => cases ihe he'; cases ihf hf'; rfl
  | alt_first he ih =>
    cases h' with
    | alt_first he' => exact ih he'
    | alt_second he' hf' => cases ih he'
  | alt_second he hf ihe ihf =>
    cases h' with
    | alt_first he' => cases ihe he'
    | alt_second he' hf' => cases ihe he'; exact ihf hf'
  | rounds_end he ih =>
    cases h' with
    | rounds_end he' => cases ih he'; rfl
    | rounds_next he' hmore' => cases ih he'
  | rounds_next he hmore ihe ihmore =>
    cases h' with
    | rounds_end he' => cases ihe he'
    | rounds_next he' hmore' => cases ihe he'; cases ihmore hmore'; rfl
  | call h ih =>
    cases h' with
    | call h' => cases ih h'; rfl
    | call_failed h' => cases ih h'
  | call_failed h ih =>
    cases h' with
    | call h' => cases ih h'
    | call_failed h' => cases ih h'; rfl

def Recognises (text : String) (o : Outcome) : Prop :=
  Runs false (.call .calculation) (.start text) o

end DecisionDiagrams
