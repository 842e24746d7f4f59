import DecisionDiagrams.Proofs.Grammar.Enclosure

/-! Writing a tree in infix form. Parentheses must stand where a phrase would be read in another
way without them, and may stand around every other phrase. Reading gives the tree back. -/
namespace DecisionDiagrams

namespace Operator

def mark : Operator → Symbol
  | add => .plus
  | subtract | negate => .minus
  | multiply => .star
  | divide => .slash
  | and => .ampersands
  | or => .bars
  | not => .bang

theorem spelling_mark (op : Operator) : String.ofList op.mark.spelling = op.symbol := by
  cases op <;> rfl

theorem arity_eq_one_or_two (op : Operator) : op.arity = 1 ∨ op.arity = 2 := by
  cases op <;> decide

/-- The two operators that share a symbol differ in their arity. -/
theorem prefixOperator?_eq_some_iff {s : Symbol} {op : Operator} :
    s.prefixOperator? = some op ↔ op.arity = 1 ∧ String.ofList s.spelling = op.symbol := by
  cases s <;> cases op <;> decide

theorem infixOperator?_eq_some_iff {s : Symbol} {op : Operator} :
    s.infixOperator? = some op ↔ op.arity = 2 ∧ String.ofList s.spelling = op.symbol := by
  cases s <;> cases op <;> decide

end Operator

variable {α : Type}

/-- The tokens write the tree where a phrase of category `p` is due, with literals that `ofNumeral?`
reads. Among them up to `k` parentheses and prefix operators are open at once. -/
inductive Printed (ofNumeral? : Numeral → Option α) :
    Nat → Expr α → List (Token Numeral) → Nat → Prop where
  | literal {p : Nat} {n : Numeral} {x : α} (hn : n.IsLexeme) (hx : ofNumeral? n = some x) :
      Printed ofNumeral? p (.literal x) [.literal n] 0
  | name {p : Nat} {text : List Char} (h : Token.IsLexeme (.name text)) :
      Printed ofNumeral? p (.variable (String.ofList text)) [.name text] 0
  | group {p k : Nat} {e : Expr α} {ts : List (Token Numeral)} (h : Printed ofNumeral? 0 e ts k) :
      Printed ofNumeral? p e (.symbol .opening :: (ts ++ [.symbol .closing])) (k + 1)
  | prefixed {p k : Nat} {op : Operator} {s : Symbol} {e : Expr α} {ts : List (Token Numeral)}
      (hop : op.arity = 1) (hs : String.ofList s.spelling = op.symbol)
      (h : Printed ofNumeral? op.precedence e ts k) :
      Printed ofNumeral? p (.apply op [e]) (.symbol s :: ts) (k + 1)
  | infixed {p k k' : Nat} {op : Operator} {s : Symbol} {e e' : Expr α}
      {ts ts' : List (Token Numeral)} (hop : op.arity = 2)
      (hs : String.ofList s.spelling = op.symbol) (hp : p ≤ op.precedence)
      (h : Printed ofNumeral? op.precedence e ts k)
      (h' : Printed ofNumeral? (op.precedence + 1) e' ts' k') :
      Printed ofNumeral? p (.apply op [e, e']) (ts ++ .symbol s :: ts') (max k k')

inductive Expr.Printable (ofNumeral? : Numeral → Option α) (write : α → Numeral) :
    Expr α → Prop where
  | literal {x : α} (hn : (write x).IsLexeme) (hx : ofNumeral? (write x) = some x) :
      Printable ofNumeral? write (.literal x)
  | variable {name : String} (h : Token.IsLexeme (.name name.toList)) :
      Printable ofNumeral? write (.variable name)
  | apply {op : Operator} {operands : List (Expr α)} (h : operands.length = op.arity)
      (hoperands : ∀ e ∈ operands, Printable ofNumeral? write e) :
      Printable ofNumeral? write (.apply op operands)

/-- The tokens of a tree where a phrase of category `p` is due. Only an infix operator that holds
its operands less tightly than that stands in parentheses. -/
def Expr.print (write : α → Numeral) (p : Nat) : Expr α → List (Token Numeral)
  | .literal x => [.literal (write x)]
  | .variable name => [.name name.toList]
  | .apply op [e] => .symbol op.mark :: e.print write op.precedence
  | .apply op [e, e'] =>
    let ts := e.print write op.precedence ++ .symbol op.mark :: e'.print write (op.precedence + 1)
    if p ≤ op.precedence then ts else .symbol .opening :: (ts ++ [.symbol .closing])
  | .apply _ _ => []

def Token.Readable (ofNumeral? : Numeral → Option α) : Token Numeral → Prop
  | .literal n => n.IsLexeme ∧ (ofNumeral? n).isSome
  | t => t.IsLexeme

theorem Token.Readable.isLexeme {ofNumeral? : Numeral → Option α} {t : Token Numeral}
    (h : t.Readable ofNumeral?) : t.IsLexeme := by
  cases t with
  | literal n => exact h.1
  | _ => exact h

namespace Printed

variable {ofNumeral? : Numeral → Option α} {p k : Nat} {e : Expr α} {ts : List (Token Numeral)}

theorem mono (h : Printed ofNumeral? p e ts k) {p' : Nat} (hp : p' ≤ p) :
    Printed ofNumeral? p' e ts k := by
  cases h with
  | literal hn hx => exact .literal hn hx
  | name h => exact .name h
  | group h => exact .group h
  | prefixed hop hs h => exact .prefixed hop hs h
  | infixed hop hs hp' h h' => exact .infixed hop hs (hp.trans hp') h h'

theorem readable (h : Printed ofNumeral? p e ts k) : ∀ t ∈ ts, t.Readable ofNumeral? := by
  induction h with
  | literal hn hx => exact List.forall_mem_singleton.mpr ⟨hn, Option.isSome_of_eq_some hx⟩
  | name h => exact List.forall_mem_singleton.mpr h
  | group h ih =>
    refine List.forall_mem_cons.mpr ⟨trivial, List.forall_mem_append.mpr ⟨ih, ?_⟩⟩
    exact List.forall_mem_singleton.mpr trivial
  | prefixed hop hs h ih => exact List.forall_mem_cons.mpr ⟨trivial, ih⟩
  | infixed hop hs hp h h' ih ih' =>
    exact List.forall_mem_append.mpr ⟨ih, List.forall_mem_cons.mpr ⟨trivial, ih'⟩⟩

variable {read : Numeral → α} (hread : ∀ n x, ofNumeral? n = some x → read n = x)

include hread in
/-- What is written is a phrase, whose tree is the one that was written. -/
theorem exists_derivation (h : Printed ofNumeral? p e ts k) (hp : p ≤ 4) :
    ∃ d : Derivation Numeral p, d.tokens = ts ∧ (d.map read).tree = e := by
  have hloosen {p k : Nat} (hp : p ≤ k) (d : Derivation Numeral k) :
      ∃ d' : Derivation Numeral p, d'.tokens = d.tokens ∧
        (d'.map read).tree = (d.map read).tree := by
    obtain ⟨d', htokens, -, htree⟩ := d.exists_looser hp
    exact ⟨d', htokens, htree read⟩
  induction h with
  | @literal p n x hn hx =>
    rw [← hread n x hx]
    exact hloosen hp (.literal n)
  | @name p text h => exact hloosen hp (.name text)
  | group h ih =>
    obtain ⟨d, rfl, rfl⟩ := ih (Nat.zero_le 4)
    exact hloosen hp (.group d)
  | @prefixed p k op s e ts hop hspelling h ih =>
    have hs := Operator.prefixOperator?_eq_some_iff.mpr ⟨hop, hspelling⟩
    have hfour := Derivation.precedence_of_prefixOperator? hs
    obtain ⟨d, rfl, rfl⟩ := ih hfour.le
    obtain ⟨operand, htokens, htree⟩ := hloosen hfour.ge d
    rw [← htokens, ← htree]
    exact hloosen hp (.prefixed s op hs operand)
  | @infixed p k k' op s e e' ts ts' hop hspelling hp' h h' ih ih' =>
    have hs := Operator.infixOperator?_eq_some_iff.mpr ⟨hop, hspelling⟩
    have hlt := Derivation.precedence_lt_four hs
    obtain ⟨left, rfl, rfl⟩ := ih hlt.le
    obtain ⟨right, rfl, rfl⟩ := ih' hlt
    exact hloosen hp' (.infixed s op hs rfl left right)

include hread in
theorem readAll_eq (h : Printed ofNumeral? p e ts k) (hp : p ≤ 4) {n : Nesting}
    (hn : n.expectsOperand = true) : n.readAll ts = n.operand := by
  obtain ⟨d, rfl, -⟩ := h.exists_derivation hread hp
  exact Nesting.readAll_tokens d hn

include hread in
/-- Scanned from where `n` are open, what is written goes `k` deeper. -/
theorem depths_le_iff (h : Printed ofNumeral? p e ts k) (hp : p ≤ 4) {n : Nesting} {limit : Nat}
    (hn : n.expectsOperand = true) (hpending : p < 4 → n.pending = 0) (hlimit : n.depth ≤ limit) :
    (∀ depth ∈ n.depths ts, depth ≤ limit) ↔ n.depth + k ≤ limit := by
  induction h generalizing n with
  | literal hn' hx =>
    exact iff_of_true (List.forall_mem_singleton.mpr (n.depth_operand_le.trans hlimit)) hlimit
  | name h =>
    exact iff_of_true (List.forall_mem_singleton.mpr (n.depth_operand_le.trans hlimit)) hlimit
  | @group p k e ts h ih =>
    have hopen := n.depth_openGroup
    rw [Nesting.depths, Nesting.depths_append, Nesting.read,
      h.readAll_eq hread (Nat.zero_le 4) rfl, Nesting.depths, Nesting.read,
      Nesting.closeGroup_openGroup, Nesting.depths, List.forall_mem_cons, List.forall_mem_append,
      List.forall_mem_singleton]
    constructor
    · rintro ⟨hlimit', hinner, -⟩
      have hk := (ih (Nat.zero_le 4) rfl (fun _ => rfl) hlimit').mp hinner
      omega
    · intro hk
      have hlimit' : n.openGroup.depth ≤ limit := by omega
      exact ⟨hlimit', (ih (Nat.zero_le 4) rfl (fun _ => rfl) hlimit').mpr (by omega),
        n.depth_operand_le.trans hlimit⟩
  | @prefixed p k op s e ts hop hspelling h ih =>
    have hs := Operator.prefixOperator?_eq_some_iff.mpr ⟨hop, hspelling⟩
    have hfour := Derivation.precedence_of_prefixOperator? hs
    let n' : Nesting := { n with pending := n.pending + 1 }
    have hdepth : n'.depth = n.depth + 1 := rfl
    have hpending' (hlt : op.precedence < 4) : n'.pending = 0 := absurd hfour hlt.ne
    rw [Nesting.depths, Nesting.read_prefix hs hn, List.forall_mem_cons]
    constructor
    · rintro ⟨hlimit', hinner⟩
      have hk := (@ih hfour.le n' hn hpending' hlimit').mp hinner
      omega
    · intro hk
      have hlimit' : n'.depth ≤ limit := by omega
      exact ⟨hlimit', (@ih hfour.le n' hn hpending' hlimit').mpr (by omega)⟩
  | @infixed p k k' op s e e' ts ts' hop hspelling hp' h h' ih ih' =>
    have hs := Operator.infixOperator?_eq_some_iff.mpr ⟨hop, hspelling⟩
    have hlt := Derivation.precedence_lt_four hs
    have hzero := hpending (hp'.trans_lt hlt)
    have hdepth : n.operand.operator.depth = n.depth := Nesting.depth_operand hzero
    rw [Nesting.depths_append, h.readAll_eq hread hlt.le hn, Nesting.depths, Nesting.read_infix hs,
      List.forall_mem_append, List.forall_mem_cons, ih hlt.le hn (fun _ => hzero) hlimit,
      @ih' hlt n.operand.operator rfl (fun _ => rfl) (hdepth.trans_le hlimit), hdepth]
    omega

include hread in
theorem withinLimit_iff {d : Derivation Numeral 0} (h : Printed ofNumeral? 0 e d.tokens k) :
    d.WithinLimit ↔ k ≤ maxNesting := by
  have hlimit := h.depths_le_iff hread (Nat.zero_le 4) (n := .start) rfl (fun _ => rfl)
    (Nat.zero_le maxNesting)
  rwa [Nesting.depths_tokens d rfl, show Nesting.start.depth = 0 from rfl, Nat.zero_add] at hlimit

end Printed

/-- A phrase is written with the parentheses that it has. -/
theorem Derivation.exists_printed {ofNumeral? : Numeral → Option α} {read : Numeral → α} {p : Nat}
    (d : Derivation Numeral p) (hlexeme : ∀ t ∈ d.tokens, t.IsLexeme)
    (hread : ∀ n, .literal n ∈ d.tokens → ofNumeral? n = some (read n)) :
    ∃ k, Printed ofNumeral? p (d.map read).tree d.tokens k := by
  induction d with
  | literal n => exact ⟨0, .literal (hlexeme _ List.mem_cons_self) (hread n List.mem_cons_self)⟩
  | name text => exact ⟨0, .name (hlexeme _ List.mem_cons_self)⟩
  | group inner ih =>
    have hmem (t : Token Numeral) (ht : t ∈ inner.tokens) : t ∈ (group inner).tokens := by
      simp [tokens, ht]
    obtain ⟨k, hprinted⟩ := ih (fun t ht => hlexeme t (hmem t ht)) fun n hn => hread n (hmem _ hn)
    exact ⟨k + 1, .group hprinted⟩
  | prefixed s op hs operand ih =>
    obtain ⟨hop, hspelling⟩ := Operator.prefixOperator?_eq_some_iff.mp hs
    obtain ⟨k, hprinted⟩ := ih (fun t ht => hlexeme t (List.mem_cons_of_mem _ ht))
      fun n hn => hread n (List.mem_cons_of_mem _ hn)
    have hfour := precedence_of_prefixOperator? hs
    exact ⟨k + 1, .prefixed hop hspelling (hprinted.mono hfour.le)⟩
  | infixed s op hs hp left right ihLeft ihRight =>
    obtain ⟨hop, hspelling⟩ := Operator.infixOperator?_eq_some_iff.mp hs
    subst hp
    obtain ⟨hlexeme, hlexeme'⟩ := List.forall_mem_append.mp hlexeme
    obtain ⟨k, hprinted⟩ := ihLeft hlexeme fun n hn => hread n (List.mem_append_left _ hn)
    obtain ⟨k', hprinted'⟩ := ihRight (List.forall_mem_cons.mp hlexeme').2 fun n hn =>
      hread n (List.mem_append_right _ (List.mem_cons_of_mem _ hn))
    exact ⟨max k k', .infixed hop hspelling le_rfl hprinted hprinted'⟩
  | tighter hp inner ih =>
    obtain ⟨k, hprinted⟩ := ih hlexeme hread
    exact ⟨k, hprinted.mono (Nat.le_succ _)⟩

namespace Expr

variable {ofNumeral? : Numeral → Option α} {write : α → Numeral}

theorem Printable.exists_printed {e : Expr α} (h : e.Printable ofNumeral? write) (p : Nat) :
    ∃ k, Printed ofNumeral? p e (e.print write p) k := by
  fun_induction print write p e with
  | case1 p x =>
    cases h with
    | literal hn hx => exact ⟨0, .literal hn hx⟩
  | case2 p name =>
    cases h with
    | «variable» h =>
      have hname : Printed ofNumeral? p (.variable (String.ofList name.toList)) _ 0 := .name h
      rw [String.ofList_toList] at hname
      exact ⟨0, hname⟩
  | case3 p op e ih =>
    cases h with
    | apply hop h =>
      obtain ⟨k, hprinted⟩ := ih (h e List.mem_cons_self)
      exact ⟨k + 1, .prefixed hop.symm op.spelling_mark hprinted⟩
  | case4 p op e e' ts hp ih ih' =>
    cases h with
    | apply hop h =>
      obtain ⟨k, hprinted⟩ := ih (h e List.mem_cons_self)
      obtain ⟨k', hprinted'⟩ := ih' (h e' (by simp))
      exact ⟨max k k', .infixed hop.symm op.spelling_mark hp hprinted hprinted'⟩
  | case5 p op e e' ts hp ih ih' =>
    cases h with
    | apply hop h =>
      obtain ⟨k, hprinted⟩ := ih (h e List.mem_cons_self)
      obtain ⟨k', hprinted'⟩ := ih' (h e' (by simp))
      refine ⟨max k k' + 1, .group ?_⟩
      exact .infixed hop.symm op.spelling_mark (Nat.zero_le _) hprinted hprinted'
  | case6 p op operands hone htwo =>
    cases h with
    | apply hop h =>
      rcases op.arity_eq_one_or_two with harity | harity
      · obtain ⟨e, rfl⟩ := List.length_eq_one_iff.mp (hop.trans harity)
        exact (hone e rfl).elim
      · obtain ⟨e, e', rfl⟩ := List.length_eq_two.mp (hop.trans harity)
        exact (htwo e e' rfl).elim

theorem length_print_le_add_two (write : α → Numeral) (p p' : Nat) (e : Expr α) :
    (e.print write p).length ≤ (e.print write p').length + 2 := by
  have hgroup (ts : List (Token Numeral)) :
      (.symbol .opening :: (ts ++ [.symbol .closing])).length = ts.length + 2 := by simp
  fun_cases print write p e with
  | case4 op e e' ts hp =>
    rw [print]
    split
    · exact Nat.le_add_right _ 2
    · exact (Nat.le_add_right _ 2).trans (hgroup ts ▸ Nat.le_add_right _ 2)
  | case5 op e e' ts hp =>
    rw [print, hgroup]
    split
    · exact le_rfl
    · exact Nat.add_le_add_right (hgroup ts ▸ Nat.le_add_right _ 2) 2
  | _ => simp [print]

end Expr

/-- No way to write a tree is shorter. -/
theorem Printed.length_print_le {ofNumeral? : Numeral → Option α} {p k : Nat} {e : Expr α}
    {ts : List (Token Numeral)} (h : Printed ofNumeral? p e ts k) (write : α → Numeral) :
    (e.print write p).length ≤ ts.length := by
  induction h with
  | literal hn hx => simp [Expr.print]
  | name h => simp [Expr.print]
  | @group p k e ts h ih =>
    have hle := e.length_print_le_add_two write p 0
    simp only [List.length_cons, List.length_append, List.length_nil]
    omega
  | prefixed hop hs h ih => simpa [Expr.print] using ih
  | infixed hop hs hp h h' ih ih' =>
    simp only [Expr.print, if_pos hp, List.length_append, List.length_cons]
    omega

/-- What is written for a tree, with whatever separators between the tokens, is read as that tree
if it is not nested too deep; and each text that is read as a tree is written for it. -/
theorem parse_printed [Scalar α] (e : Expr α) :
    (∀ write : α → Numeral, e.Printable Scalar.ofNumeral? write →
      (∃ k, Printed Scalar.ofNumeral? 0 e (e.print write 0) k) ∧
      ∀ ts k, Printed Scalar.ofNumeral? 0 e ts k → (e.print write 0).length ≤ ts.length) ∧
    (∀ ts k, Printed Scalar.ofNumeral? 0 e ts k → ∀ text : String, Spaced text.toList ts →
      (parse text = .ok e ↔ k ≤ maxNesting)) ∧
    ∀ text : String, parse text = .ok e →
      ∃ ts k, Printed Scalar.ofNumeral? 0 e ts k ∧ Spaced text.toList ts := by
  refine ⟨fun write he => ⟨he.exists_printed 0, fun ts k h => h.length_print_le write⟩,
    fun ts k h text htext => ?_, fun text htext => ?_⟩
  · let read (n : Numeral) : α := (Scalar.ofNumeral? n).getD Scalar.zero
    have hread (n : Numeral) (x : α) (hx : Scalar.ofNumeral? n = some x) : read n = x := by
      simp only [read, hx, Option.getD_some]
    have hreadable := h.readable
    obtain ⟨d, rfl, htree⟩ := h.exists_derivation hread (Nat.zero_le 4)
    have hcut := d.cut_iff_spaced.mpr ⟨htext, fun t ht => (hreadable t ht).isLexeme⟩
    rw [← h.withinLimit_iff hread, parse_eq_ok_iff]
    constructor
    · rintro ⟨d', -, hd', -, -⟩
      exact Derivation.eq_of_cut hcut hd'.cut ▸ hd'.withinLimit
    · intro hlimit
      refine ⟨d, read, ⟨hcut, hlimit⟩, fun n hn => ?_, htree⟩
      obtain ⟨x, hx⟩ := Option.isSome_iff_exists.mp (hreadable _ hn).2
      rw [hx, hread n x hx]
  · obtain ⟨d, read, hd, hread, rfl⟩ := parse_eq_ok_iff.mp htext
    obtain ⟨k, hprinted⟩ := d.exists_printed hd.cut.isLexeme hread
    exact ⟨d.tokens, k, hprinted, hd.cut.spaced⟩

/-- The difference in `a-(b-2e-3)*-c` needs its parentheses, and the signs need no space. -/
theorem parse_printed_product :
    let numeral : Numeral := ⟨['2'], none, some ⟨'e', some '-', ['3']⟩⟩
    let e : Expr Float := .apply .subtract [.variable "a", .apply .multiply
      [.apply .subtract [.variable "b", .literal (numeral.roundBy Float.ofScientific)],
        .apply .negate [.variable "c"]]]
    e.Printable Scalar.ofNumeral? (fun _ => numeral) ∧
      Printed Scalar.ofNumeral? 0 e (e.print (fun _ => numeral) 0) 1 ∧
      Spaced "a-(b-2e-3)*-c".toList (e.print (fun _ => numeral) 0) ∧
      parse "a-(b-2e-3)*-c" = .ok e ∧
      ∀ ts k, Printed Scalar.ofNumeral? 0 e ts k →
        (e.print (fun _ => numeral) 0).length ≤ ts.length := by
  intro numeral e
  have hexponent : Exponent.IsLexeme ⟨'e', some '-', ['3']⟩ :=
    ⟨.inl rfl, fun c hc => .inr (Option.some.inj hc).symm, List.forall_mem_singleton.mpr rfl,
      List.cons_ne_nil _ _⟩
  have hnumeral : numeral.IsLexeme :=
    ⟨List.forall_mem_singleton.mpr rfl, nofun, .inl (List.cons_ne_nil _ _),
      fun e he => Option.some.inj he ▸ hexponent⟩
  have hname (c : Char) (hc : isNameStart c = true) : (Token.name [c] : Token Numeral).IsLexeme :=
    ⟨c, [], rfl, hc, nofun⟩
  have hread : (Scalar.ofNumeral? numeral : Option Float) =
      some (numeral.roundBy Float.ofScientific) := rfl
  have hprintable : e.Printable Scalar.ofNumeral? (fun _ => numeral) := by
    have hdifference : Expr.Printable Scalar.ofNumeral? (fun _ => numeral) (.apply .subtract
        [.variable "b", .literal (numeral.roundBy Float.ofScientific)]) := by
      refine .apply rfl (List.forall_mem_cons.mpr ⟨.variable (hname 'b' rfl), ?_⟩)
      exact List.forall_mem_singleton.mpr (.literal hnumeral hread)
    have hnegation : Expr.Printable (α := Float) Scalar.ofNumeral? (fun _ => numeral)
        (.apply .negate [.variable "c"]) :=
      .apply rfl (List.forall_mem_singleton.mpr (.variable (hname 'c' rfl)))
    refine .apply rfl (List.forall_mem_cons.mpr ⟨.variable (hname 'a' rfl), ?_⟩)
    refine List.forall_mem_singleton.mpr (.apply rfl (List.forall_mem_cons.mpr ⟨hdifference, ?_⟩))
    exact List.forall_mem_singleton.mpr hnegation
  have hprinted : Printed Scalar.ofNumeral? 0 e (e.print (fun _ => numeral) 0) 1 := by
    show Printed _ 0 e _ (max 0 (max (max 0 0 + 1) (0 + 1)))
    refine .infixed rfl rfl (by decide) (.name (hname 'a' rfl)) ?_
    refine .infixed rfl rfl (by decide) (.group ?_) (.prefixed rfl rfl (.name (hname 'c' rfl)))
    exact .infixed rfl rfl (by decide) (.name (hname 'b' rfl)) (.literal hnumeral hread)
  have hspaced : Spaced "a-(b-2e-3)*-c".toList (e.print (fun _ => numeral) 0) :=
    (cut_iff.mpr ⟨by decide +kernel, fun t ht => (hprinted.readable t ht).isLexeme⟩).spaced
  obtain ⟨hprint, hparse, -⟩ := parse_printed e
  exact ⟨hprintable, hprinted, hspaced, (hparse _ 1 hprinted _ hspaced).mpr (by decide),
    (hprint _ hprintable).2⟩

end DecisionDiagrams
