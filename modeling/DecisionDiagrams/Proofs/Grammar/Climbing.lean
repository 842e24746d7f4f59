import DecisionDiagrams.Proofs.Grammar.Reading

/-! Precedence climbing: operands and operators in a row are put together as tightly as the
operators bind. Whatever is made of them, it is what the derivation of the row makes. -/
namespace DecisionDiagrams

def Operator.power (op : Operator) : Nat := 10 * (op.precedence + 1)

structure PrefixSign where
  symbol : Symbol
  op : Operator
  hs : symbol.prefixOperator? = some op

structure InfixSign where
  symbol : Symbol
  op : Operator
  hs : symbol.infixOperator? = some op

structure Row.Link (β : Type) where
  sign : InfixSign
  signs : List PrefixSign
  operand : β

structure Row (β : Type) where
  signs : List PrefixSign
  first : β
  rest : List (Row.Link β)

inductive Operand (α : Type) where
  | literal (x : α)
  | name (text : List Char)
  | group (row : Row (Operand α))

variable {α β : Type}

def PrefixSign.token (sign : PrefixSign) : Token α := .symbol sign.symbol

mutual

def Operand.tokens : Operand α → List (Token α)
  | .literal x => [.literal x]
  | .name text => [.name text]
  | .group row => .symbol .opening :: (row.tokens ++ [.symbol .closing])

def Row.tokens : Row (Operand α) → List (Token α)
  | ⟨signs, first, rest⟩ =>
    signs.map PrefixSign.token ++ (first.tokens ++ Row.linkTokens rest)

def Row.linkTokens : List (Row.Link (Operand α)) → List (Token α)
  | [] => []
  | ⟨sign, signs, operand⟩ :: rest =>
    .symbol sign.symbol :: (signs.map PrefixSign.token ++ (operand.tokens ++ Row.linkTokens rest))

end

theorem Row.tokens_eq (row : Row (Operand α)) :
    row.tokens = row.signs.map PrefixSign.token ++ (row.first.tokens ++ linkTokens row.rest) := by
  cases row
  rw [tokens]

structure Builder (α β : Type) where
  literal : α → β
  name : List Char → β
  prefixed : Operator → β → β
  infixed : β → Operator → β → β

/-- Puts together an operand, the prefix operators in front of it, and what follows it up to an
operator that binds no tighter than `power`. What has been put together is an operand again. -/
def Builder.climb (b : Builder α β) (power : Nat) (signs : List PrefixSign) (x : β)
    (rest : List (Row.Link β)) : β × { left : List (Row.Link β) // left.length ≤ rest.length } :=
  match signs, rest with
  | sign :: signs, rest =>
    -- No infix operator binds as tightly as a prefix operator, so no link is taken here.
    let inner := b.climb (sign.op.power - 1) signs x rest
    (b.climb power [] (b.prefixed sign.op inner.1) inner.2.1).map id fun left =>
      ⟨left.1, left.2.trans inner.2.2⟩
  | [], [] => (x, ⟨[], Nat.le_refl _⟩)
  | [], link :: rest =>
    if power < link.sign.op.power then
      let right := b.climb link.sign.op.power link.signs link.operand rest
      (b.climb power [] (b.infixed x link.sign.op right.1) right.2.1).map id fun left =>
        ⟨left.1, (left.2.trans right.2.2).trans (Nat.le_succ _)⟩
    else (x, ⟨link :: rest, Nat.le_refl _⟩)
termination_by (rest.length, signs.length)
decreasing_by
  · exact Prod.Lex.right _ (Nat.lt_succ_self _)
  · exact Prod.Lex.right' _ inner.2.2 (Nat.succ_pos _)
  · exact Prod.Lex.left _ _ (Nat.lt_succ_self _)
  · exact Prod.Lex.left _ _ (Nat.lt_succ_of_le right.2.2)

mutual

def Operand.value (b : Builder α β) : Operand α → β
  | .literal x => b.literal x
  | .name text => b.name text
  | .group row => row.value b

def Row.value (b : Builder α β) : Row (Operand α) → β
  | ⟨signs, first, rest⟩ => (b.climb 0 signs (first.value b) (Row.linkValues b rest)).1

def Row.linkValues (b : Builder α β) : List (Row.Link (Operand α)) → List (Row.Link β)
  | [] => []
  | ⟨sign, signs, operand⟩ :: rest => ⟨sign, signs, operand.value b⟩ :: Row.linkValues b rest

end

def Derivation.fold (b : Builder α β) {p : Nat} : Derivation α p → β
  | literal x => b.literal x
  | name text => b.name text
  | group inner => inner.fold b
  | prefixed _ op _ operand => b.prefixed op (operand.fold b)
  | infixed _ op _ _ left right => b.infixed (left.fold b) op (right.fold b)
  | tighter _ inner => inner.fold b

namespace Builder

variable {b : Builder α β}

/-- The value is made of a phrase of category `p` with these tokens. -/
def Makes (b : Builder α β) (p : Nat) (x : β) (ts : List (Token α)) : Prop :=
  ∃ d : Derivation α p, d.tokens = ts ∧ d.fold b = x

/-- A phrase of a category is a phrase of each category that holds less tightly. -/
theorem Makes.looser {p k : Nat} {x : β} {ts : List (Token α)} (hp : p ≤ k) (h : b.Makes k x ts) :
    b.Makes p x ts := by
  induction hp with
  | refl => exact h
  | @step k hp ih =>
    obtain ⟨d, htokens, hfold⟩ := h
    have hk : k < 4 := d.le_four
    exact ih ⟨.tighter hk d, htokens, hfold⟩

theorem Makes.prefixed {x : β} {ts : List (Token α)} (sign : PrefixSign) (h : b.Makes 4 x ts) :
    b.Makes 4 (b.prefixed sign.op x) (.symbol sign.symbol :: ts) := by
  obtain ⟨d, rfl, rfl⟩ := h
  exact ⟨.prefixed sign.symbol sign.op sign.hs d, rfl, rfl⟩

theorem Makes.infixed {x y : β} {ts us : List (Token α)} (sign : InfixSign)
    (hx : b.Makes sign.op.precedence x ts) (hy : b.Makes (sign.op.precedence + 1) y us) :
    b.Makes sign.op.precedence (b.infixed x sign.op y) (ts ++ .symbol sign.symbol :: us) := by
  obtain ⟨left, rfl, rfl⟩ := hx
  obtain ⟨right, rfl, rfl⟩ := hy
  exact ⟨.infixed sign.symbol sign.op sign.hs rfl left right, rfl, rfl⟩

theorem Makes.group {x : β} {ts : List (Token α)} (h : b.Makes 0 x ts) :
    b.Makes 4 x (.symbol .opening :: (ts ++ [.symbol .closing])) := by
  obtain ⟨d, rfl, rfl⟩ := h
  exact ⟨.group d, rfl, rfl⟩

inductive MakesLinks (b : Builder α β) : List (Row.Link β) → List (Token α) → Prop where
  | nil : MakesLinks b [] []
  | cons {sign : InfixSign} {signs : List PrefixSign} {x : β} {rest : List (Row.Link β)}
      {ts us : List (Token α)} (hx : b.Makes 4 x ts) (h : MakesLinks b rest us) :
      MakesLinks b (⟨sign, signs, x⟩ :: rest)
        (.symbol sign.symbol :: (signs.map PrefixSign.token ++ (ts ++ us)))

/-- No operator at the start of the links belongs to category `p` or a later one. -/
def Stops (p : Nat) (rest : List (Row.Link β)) : Prop :=
  ∀ link ∈ rest.head?, link.sign.op.precedence < p

theorem Stops.eq_nil {rest : List (Row.Link β)} (h : Stops 0 rest) : rest = [] := by
  cases rest with
  | nil => rfl
  | cons link rest => exact absurd (h link rfl) (Nat.not_lt_zero _)

theorem stops_five (rest : List (Row.Link β)) : Stops 5 rest :=
  fun link _ => (Derivation.precedence_lt_four link.sign.hs).trans (by decide)

/-- The value is made of a phrase of category `p`, which goes as far as it can, and the links follow
it. Together they have these tokens. -/
def MakesFront (b : Builder α β) (p : Nat) (x : β) (rest : List (Row.Link β))
    (ts : List (Token α)) : Prop :=
  ∃ front back, b.Makes p x front ∧ b.MakesLinks rest back ∧ Stops p rest ∧ front ++ back = ts

/-- The operators that bind tighter than `power` are those of category `p` and the later ones. -/
def Admits (power p : Nat) : Prop :=
  ∀ sign : InfixSign, power < sign.op.power ↔ p ≤ sign.op.precedence

theorem admits_zero : Admits 0 0 := fun sign => by simp [Operator.power]

theorem admits_infixed (sign : InfixSign) : Admits sign.op.power (sign.op.precedence + 1) := by
  intro sign'
  simp only [Operator.power]
  omega

theorem admits_prefixed (sign : PrefixSign) : Admits (sign.op.power - 1) 4 := by
  intro sign'
  simp only [Operator.power, Derivation.precedence_of_prefixOperator? sign.hs]
  omega

/-- Climbing makes a phrase of the category that `power` stands for. An operand in front of which
no prefix operator stands may be any phrase that the next operator cannot go on with. -/
theorem makesFront_climb {power p k : Nat} {signs : List PrefixSign} {x : β}
    {rest : List (Row.Link β)} {ts us : List (Token α)} (hpower : Admits power p) (hp : p ≤ k)
    (hsigns : signs ≠ [] → k = 4) (hx : b.Makes k x ts) (hrest : b.MakesLinks rest us)
    (hstops : Stops (k + 1) rest) :
    b.MakesFront p (b.climb power signs x rest).1 (b.climb power signs x rest).2.1
      (signs.map PrefixSign.token ++ (ts ++ us)) := by
  -- The operand grows from the left, and each operator lowers its category to its own.
  fun_induction climb b power signs x rest generalizing p k ts us with
  | case1 power x sign signs rest inner ih =>
    rename_i ihOuter
    obtain rfl : k = 4 := hsigns (List.cons_ne_nil _ _)
    obtain ⟨front, back, hinner, hleft, -, htokens⟩ :=
      ih (admits_prefixed sign) le_rfl (fun _ => rfl) hx hrest (stops_five rest)
    have houter := ihOuter hpower hp nofun (hinner.prefixed sign) hleft (stops_five _)
    rwa [List.map_cons, List.cons_append, ← htokens]
  | case2 power x => exact ⟨ts, us, hx.looser hp, hrest, nofun, rfl⟩
  | case3 power x link rest hlt right ih =>
    rename_i ihWhole
    cases hrest with | @cons sign signs y _ ts' us' hy hlinks =>
    have hle : sign.op.precedence ≤ k := Nat.le_of_lt_succ (hstops _ rfl)
    obtain ⟨front, back, hright, hleft, hstops', htokens⟩ := ih (admits_infixed sign)
      (Derivation.precedence_lt_four sign.hs) (fun _ => rfl) hy hlinks (stops_five rest)
    have hwhole := ihWhole hpower ((hpower sign).mp hlt) nofun
      ((hx.looser hle).infixed sign hright) hleft hstops'
    rwa [List.append_assoc, List.cons_append, htokens] at hwhole
  | case4 power x link rest hlt =>
    refine ⟨ts, us, hx.looser hp, hrest, ?_, rfl⟩
    rintro _ ⟨⟩
    exact Nat.lt_of_not_le fun hle => hlt ((hpower link.sign).mpr hle)

mutual

theorem makes_operand (b : Builder α β) : (operand : Operand α) →
    b.Makes 4 (operand.value b) operand.tokens
  | .literal x => ⟨.literal x, rfl, rfl⟩
  | .name text => ⟨.name text, rfl, rfl⟩
  | .group row => (makes_row b row).group

theorem makes_row (b : Builder α β) : (row : Row (Operand α)) → b.Makes 0 (row.value b) row.tokens
  | ⟨signs, first, rest⟩ => by
    obtain ⟨front, back, hfront, hback, hstops, htokens⟩ :=
      makesFront_climb admits_zero (Nat.zero_le 4) (fun _ : signs ≠ [] => rfl)
        (makes_operand b first) (makesLinks b rest) (stops_five _)
    rw [hstops.eq_nil] at hback
    cases hback
    rw [List.append_nil] at htokens
    rwa [Row.tokens, ← htokens]

theorem makesLinks (b : Builder α β) : (rest : List (Row.Link (Operand α))) →
    b.MakesLinks (Row.linkValues b rest) (Row.linkTokens rest)
  | [] => .nil
  | ⟨_, _, operand⟩ :: rest => .cons (makes_operand b operand) (makesLinks b rest)

end

end Builder

/-- Whatever is made of a row by climbing, it is what its derivation makes. -/
theorem Row.value_eq_fold (b : Builder α β) {row : Row (Operand α)} {d : Derivation α 0}
    (h : row.tokens = d.tokens) : row.value b = d.fold b := by
  obtain ⟨d', htokens, hfold⟩ := Builder.makes_row b row
  obtain rfl := Derivation.eq_of_tokens_eq (htokens.trans h)
  exact hfold.symm

/-- A row is the row of a phrase. -/
theorem Row.exists_derivation (row : Row (Operand α)) :
    ∃ d : Derivation α 0, d.tokens = row.tokens := by
  let b : Builder α Unit := ⟨fun _ => (), fun _ => (), fun _ _ => (), fun _ _ _ => ()⟩
  obtain ⟨d, htokens, -⟩ := Builder.makes_row b row
  exact ⟨d, htokens⟩

end DecisionDiagrams
