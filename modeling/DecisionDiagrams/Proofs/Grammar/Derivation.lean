import DecisionDiagrams.Grammar.Tree
import Mathlib.Data.List.Basic
import Mathlib.Order.Nat

/-! The grammar of expressions. Its categories are numbered by how tightly they hold together:
disjunctions (0), conjunctions (1), sums (2), products (3) and operands (4). Infix operators group
from the left, and every sequence of tokens has at most one derivation. -/
namespace DecisionDiagrams

/-- Derivations of a category. Below 4, a phrase of category `p` is a phrase of the same category,
an infix operator of precedence `p` and a phrase of the next category, or it is a phrase of the
next category alone. -/
inductive Derivation (α : Type) : Nat → Type where
  | literal (x : α) : Derivation α 4
  | name (text : List Char) : Derivation α 4
  | group (inner : Derivation α 0) : Derivation α 4
  | prefixed (s : Symbol) (op : Operator) (hs : s.prefixOperator? = some op)
      (operand : Derivation α 4) : Derivation α 4
  | infixed {p : Nat} (s : Symbol) (op : Operator) (hs : s.infixOperator? = some op)
      (hp : op.precedence = p) (left : Derivation α p) (right : Derivation α (p + 1)) :
      Derivation α p
  | tighter {p : Nat} (hp : p < 4) (inner : Derivation α (p + 1)) : Derivation α p

namespace Derivation

variable {α β : Type} {p : Nat}

def tokens {p : Nat} : Derivation α p → List (Token α)
  | literal x => [.literal x]
  | name text => [.name text]
  | group inner => .symbol .opening :: (inner.tokens ++ [.symbol .closing])
  | prefixed s _ _ operand => .symbol s :: operand.tokens
  | infixed s _ _ _ left right => left.tokens ++ .symbol s :: right.tokens
  | tighter _ inner => inner.tokens

/-- The tree of a phrase, in which parentheses leave no trace. -/
def tree {p : Nat} : Derivation α p → Expr α
  | literal x => .literal x
  | name text => .variable (String.ofList text)
  | group inner => inner.tree
  | prefixed _ op _ operand => .apply op [operand.tree]
  | infixed _ op _ _ left right => .apply op [left.tree, right.tree]
  | tighter _ inner => inner.tree

def map (f : α → β) {p : Nat} : Derivation α p → Derivation β p
  | literal x => literal (f x)
  | name text => name text
  | group inner => group (inner.map f)
  | prefixed s op hs operand => prefixed s op hs (operand.map f)
  | infixed s op hs hp left right => infixed s op hs hp (left.map f) (right.map f)
  | tighter hp inner => tighter hp (inner.map f)

structure Link (α : Type) (p : Nat) where
  symbol : Symbol
  op : Operator
  hs : symbol.infixOperator? = some op
  hp : op.precedence = p
  right : Derivation α (p + 1)

def Link.tokens (k : Link α p) : List (Token α) := .symbol k.symbol :: k.right.tokens

def chain (first : Derivation α p) (links : List (Link α p)) : Derivation α p :=
  links.foldl (fun left k => infixed k.symbol k.op k.hs k.hp left k.right) first

theorem tokens_chain (first : Derivation α p) (links : List (Link α p)) :
    (chain first links).tokens = first.tokens ++ links.flatMap Link.tokens := by
  induction links generalizing first with
  | nil => simp [chain]
  | cons k links ih =>
    have hchain : chain first (k :: links) =
        chain (infixed k.symbol k.op k.hs k.hp first k.right) links := rfl
    rw [hchain, ih]
    simp [tokens, Link.tokens]

/-- Left recursion unrolled: a phrase is a chain of phrases of the next category. -/
theorem exists_chain (hp : p < 4) (d : Derivation α p) :
    ∃ first links, d = chain (tighter hp first) links := by
  induction d with
  | literal x => exact absurd hp (Nat.lt_irrefl 4)
  | name text => exact absurd hp (Nat.lt_irrefl 4)
  | group inner ih => exact absurd hp (Nat.lt_irrefl 4)
  | prefixed s op hs operand ih => exact absurd hp (Nat.lt_irrefl 4)
  | infixed s op hs hprec left right ihLeft ihRight =>
    obtain ⟨first, links, rfl⟩ := ihLeft hp
    exact ⟨first, links ++ [⟨s, op, hs, hprec, right⟩], by simp [chain]⟩
  | tighter hp' inner ih => exact ⟨inner, [], rfl⟩

/-- The tokens do not go on with an infix operator of this or a higher precedence. -/
def Stops (p : Nat) (ts : List (Token α)) : Prop :=
  ∀ s op, ts.head? = some (.symbol s) → s.infixOperator? = some op → op.precedence < p

theorem Stops.mono {p p' : Nat} (h : p ≤ p') {ts : List (Token α)} (hts : Stops p ts) :
    Stops p' ts := fun s op hs hop => (hts s op hs hop).trans_le h

theorem stops_closing (p : Nat) (ts : List (Token α)) : Stops p (.symbol .closing :: ts) := by
  intro s op hs hop
  cases hs
  cases hop

theorem stops_links {links : List (Link α p)} {rest : List (Token α)} (hrest : Stops p rest) :
    Stops (p + 1) (links.flatMap Link.tokens ++ rest) := by
  cases links with
  | nil => exact hrest.mono p.le_succ
  | cons k links =>
    intro s op hs hop
    cases hs
    cases k.hs.symm.trans hop
    rw [k.hp]
    exact Nat.lt_succ_self p

/-- Phrases of a category that begin the same tokens are the same, if both go as far as they can
and the first one has at most `n` tokens. -/
def UniqueUpTo (α : Type) (n p : Nat) : Prop :=
  ∀ (d d' : Derivation α p) (rest rest' : List (Token α)), d.tokens.length ≤ n →
    d.tokens ++ rest = d'.tokens ++ rest' → Stops p rest → Stops p rest' → d = d' ∧ rest = rest'

theorem UniqueUpTo.links {n : Nat} (h : UniqueUpTo α n (p + 1)) (links links' : List (Link α p))
    (rest rest' : List (Token α)) (hlength : (links.flatMap Link.tokens).length ≤ n)
    (heq : links.flatMap Link.tokens ++ rest = links'.flatMap Link.tokens ++ rest')
    (hrest : Stops p rest) (hrest' : Stops p rest') : links = links' ∧ rest = rest' := by
  induction links generalizing links' with
  | nil =>
    cases links' with
    | nil => exact ⟨rfl, heq⟩
    | cons k' links' =>
      have hlt := hrest k'.symbol k'.op (by rw [show rest = _ from heq]; rfl) k'.hs
      exact absurd k'.hp hlt.ne
  | cons k links ih =>
    cases links' with
    | nil =>
      have hlt := hrest' k.symbol k.op (by rw [show rest' = _ from heq.symm]; rfl) k.hs
      exact absurd k.hp hlt.ne
    | cons k' links' =>
      obtain ⟨s, op, hs, hp, right⟩ := k
      obtain ⟨s', op', hs', hp', right'⟩ := k'
      simp only [List.flatMap_cons, Link.tokens, List.cons_append, List.append_assoc,
        List.cons.injEq, Token.symbol.injEq, List.length_cons, List.length_append] at heq hlength
      obtain ⟨rfl, heq⟩ := heq
      cases hs.symm.trans hs'
      obtain ⟨rfl, hlinks⟩ := h right right' _ _ (by omega) heq (stops_links hrest)
        (stops_links hrest')
      obtain ⟨rfl, rfl⟩ := ih links' (by omega) hlinks
      exact ⟨rfl, rfl⟩

theorem UniqueUpTo.chain {n : Nat} (hp : p < 4) (h : UniqueUpTo α n (p + 1)) :
    UniqueUpTo α n p := by
  intro d d' rest rest' hlength heq hrest hrest'
  obtain ⟨first, links, rfl⟩ := exists_chain hp d
  obtain ⟨first', links', rfl⟩ := exists_chain hp d'
  simp only [tokens_chain, tokens, List.append_assoc, List.length_append] at hlength heq
  obtain ⟨rfl, hlinks⟩ := h first first' _ _ (by omega) heq (stops_links hrest)
    (stops_links hrest')
  obtain ⟨rfl, rfl⟩ := h.links links links' rest rest' (by omega) hlinks hrest hrest'
  exact ⟨rfl, rfl⟩

theorem precedence_lt_four {s : Symbol} {op : Operator} (h : s.infixOperator? = some op) :
    op.precedence < 4 := by
  cases s <;> cases h <;> decide

/-- An operand has a form of its own for each first token. -/
theorem operand_cases {motive : Derivation α 4 → Prop} (d : Derivation α 4)
    (literal : ∀ x, motive (.literal x)) (name : ∀ text, motive (.name text))
    (group : ∀ inner, motive (.group inner))
    (prefixed : ∀ s op hs operand, motive (.prefixed s op hs operand)) : motive d := by
  cases d with
  | literal x => exact literal x
  | name text => exact name text
  | group inner => exact group inner
  | prefixed s op hs operand => exact prefixed s op hs operand
  | infixed s op hs hp left right => exact absurd hp (precedence_lt_four hs).ne
  | tighter hp inner => exact absurd hp (Nat.lt_irrefl 4)

/-- An operand is determined by its first token and what is inside it. -/
theorem UniqueUpTo.operand {n : Nat} (h : UniqueUpTo α n 0) (h' : UniqueUpTo α n 4) :
    UniqueUpTo α (n + 1) 4 := by
  intro d d' rest rest' hlength heq hrest hrest'
  induction d using operand_cases with
  | literal x =>
    induction d' using operand_cases with
    | literal x' => cases heq; exact ⟨rfl, rfl⟩
    | _ => cases heq
  | name text =>
    induction d' using operand_cases with
    | name text' => cases heq; exact ⟨rfl, rfl⟩
    | _ => cases heq
  | group inner =>
    induction d' using operand_cases with
    | group inner' =>
      simp only [tokens, List.cons_append, List.append_assoc, List.cons.injEq, true_and,
        List.length_cons, List.length_append] at heq hlength
      obtain ⟨rfl, htail⟩ := h inner inner' _ _ (by omega) heq (stops_closing 0 _)
        (stops_closing 0 _)
      exact ⟨rfl, (List.cons.inj htail).2⟩
    | prefixed s' op' hs' operand' =>
      cases Token.symbol.inj (List.cons.inj heq).1
      cases hs'
    | _ => cases heq
  | prefixed s op hs operand =>
    induction d' using operand_cases with
    | prefixed s' op' hs' operand' =>
      simp only [tokens, List.cons_append, List.cons.injEq, Token.symbol.injEq,
        List.length_cons] at heq hlength
      obtain ⟨rfl, heq⟩ := heq
      cases hs.symm.trans hs'
      obtain ⟨rfl, rfl⟩ := h' operand operand' _ _ (by omega) heq hrest hrest'
      exact ⟨rfl, rfl⟩
    | group inner' =>
      cases Token.symbol.inj (List.cons.inj heq).1
      cases hs
    | _ => cases heq

theorem le_four (d : Derivation α p) : p ≤ 4 := by
  induction d with
  | infixed s op hs hp left right ihLeft ihRight => exact ihLeft
  | tighter hp inner ih => exact hp.le
  | _ => exact le_rfl

theorem tokens_ne_nil (d : Derivation α p) : d.tokens ≠ [] := by
  induction d with
  | infixed s op hs hp left right ihLeft ihRight => simp [tokens]
  | tighter hp inner ih => exact ih
  | _ => exact List.cons_ne_nil _ _

theorem uniqueUpTo (n : Nat) {q p : Nat} (hq : p + q = 4) : UniqueUpTo α n p := by
  -- Within a category the tokens get fewer, and the categories below it hold tighter.
  induction n generalizing q p with
  | zero =>
    intro d d' rest rest' hlength
    exact absurd (List.eq_nil_of_length_eq_zero (Nat.le_zero.mp hlength)) d.tokens_ne_nil
  | succ n ihTokens =>
    induction q generalizing p with
    | zero =>
      obtain rfl : p = 4 := hq
      exact .operand (ihTokens (Nat.zero_add 4)) (ihTokens (Nat.add_zero 4))
    | succ q ihCategory => exact .chain (by omega) (ihCategory (by omega))

/-- A sequence of tokens has at most one derivation. -/
theorem eq_of_tokens_eq {d d' : Derivation α p} (h : d.tokens = d'.tokens) : d = d' := by
  have hstops : Stops p ([] : List (Token α)) := nofun
  exact (uniqueUpTo _ (Nat.add_sub_cancel' d.le_four) d d' [] [] le_rfl
    (congrArg (· ++ []) h) hstops hstops).1

end Derivation

end DecisionDiagrams
