import DecisionDiagrams.Decimal.Numeral
import DecisionDiagrams.Text.Position

/-! Tokens, each the longest at its place in a text. -/
namespace DecisionDiagrams

inductive Symbol where
  | plus
  | minus
  | star
  | slash
  | ampersands
  | bars
  | bang
  | opening
  | closing
  deriving DecidableEq, Repr

def Symbol.spelling : Symbol → List Char
  | plus => ['+']
  | minus => ['-']
  | star => ['*']
  | slash => ['/']
  | ampersands => ['&', '&']
  | bars => ['|', '|']
  | bang => ['!']
  | opening => ['(']
  | closing => [')']

inductive Token (α : Type) where
  | literal (value : α)
  | name (text : List Char)
  | symbol (s : Symbol)
  /-- A character that starts no other token. -/
  | stray (c : Char)
  deriving DecidableEq, Repr

structure Located (β : Type) where
  position : Position
  item : β
  deriving DecidableEq, Repr

structure Lexed (α : Type) where
  tokens : List (Located (Token α))
  finish : Position
  deriving DecidableEq, Repr

def isSeparator (c : Char) : Bool := c = ' ' || c = '\t' || c = '\r' || c = '\n'

def isNameStart (c : Char) : Bool := c.isAlpha || c = '_'

def isNameChar (c : Char) : Bool := c.isAlphanum || c = '_'

def Symbol.scan? : List Char → Option (Symbol × List Char)
  | '+' :: cs => some (plus, cs)
  | '-' :: cs => some (minus, cs)
  | '*' :: cs => some (star, cs)
  | '/' :: cs => some (slash, cs)
  | '&' :: '&' :: cs => some (ampersands, cs)
  | '|' :: '|' :: cs => some (bars, cs)
  | '!' :: cs => some (bang, cs)
  | '(' :: cs => some (opening, cs)
  | ')' :: cs => some (closing, cs)
  | _ => none

theorem Symbol.spelling_append_of_scan? {cs rest : List Char} {s : Symbol}
    (h : scan? cs = some (s, rest)) : s.spelling ++ rest = cs := by
  unfold scan? at h
  split at h <;> cases h <;> rfl

namespace Token

def spelling : Token Numeral → List Char
  | literal n => n.spelling
  | name text => text
  | symbol s => s.spelling
  | stray c => [c]

/-- The token that starts with `c`, and the text after it. -/
def scan (c : Char) (cs : List Char) : Token Numeral × List Char :=
  if isNameStart c then (.name (c :: cs.takeWhile isNameChar), cs.dropWhile isNameChar)
  else
    match Numeral.scan? (c :: cs) with
    | some (n, rest) => (.literal n, rest)
    | none =>
      match Symbol.scan? (c :: cs) with
      | some (s, rest) => (.symbol s, rest)
      | none => (.stray c, cs)

theorem spelling_append_scan (c : Char) (cs : List Char) :
    (scan c cs).1.spelling ++ (scan c cs).2 = c :: cs := by
  unfold scan
  split
  · simp [spelling]
  split
  next h => exact Numeral.spelling_append_of_scan? h
  split
  next h => exact Symbol.spelling_append_of_scan? h
  rfl

theorem spelling_scan_ne_nil (c : Char) (cs : List Char) : (scan c cs).1.spelling ≠ [] := by
  unfold scan
  split
  · simp [spelling]
  split
  next h => exact Numeral.spelling_ne_nil_of_scan? h
  split
  next s _ _ => cases s <;> simp [spelling, Symbol.spelling]
  simp [spelling]

theorem length_scan_lt (c : Char) (cs : List Char) : (scan c cs).2.length < (c :: cs).length := by
  have happend := congrArg List.length (spelling_append_scan c cs)
  have hpos := List.length_pos_iff.mpr (spelling_scan_ne_nil c cs)
  rw [List.length_append] at happend
  omega

end Token

/-- Continues a text at `p`, after the tokens in `done`, the last one first. -/
def lexFrom (done : List (Located (Token Numeral))) (p : Position) :
    List Char → Lexed Numeral
  | [] => ⟨done.reverse, p⟩
  | c :: cs =>
    if isSeparator c then lexFrom done (p.after c) cs
    else
      let scanned := Token.scan c cs
      lexFrom (⟨p, scanned.1⟩ :: done) (p.afterAll scanned.1.spelling) scanned.2
termination_by cs => cs.length
decreasing_by
  · simp
  · exact Token.length_scan_lt c cs

def lex (text : String) : Lexed Numeral := lexFrom [] Position.start text.toList

end DecisionDiagrams
