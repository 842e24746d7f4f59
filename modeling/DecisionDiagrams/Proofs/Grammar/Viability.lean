import DecisionDiagrams.Proofs.Grammar.Reading

/-! Tokens with which a sentence can begin: how they can be completed, and what is due behind
them. -/
namespace DecisionDiagrams

open DecisionDiagrams.Frame Reading

variable {α : Type}

/-- Some sentence begins with the tokens. -/
def Viable (ts : List (Token α)) : Prop := ∃ d : Derivation α 0, ts <+: d.tokens

/-- A phrase that is awaited becomes a sentence when all groups are closed. -/
theorem Frame.Opened.exists_closed {p k : Nat} {frames : List (Frame α)} {ts : List (Token α)}
    (h : Opened p frames ts) (d : Derivation α k) (hp : p ≤ k) :
    ∃ (m : Nat) (d' : Derivation α 0),
      d'.tokens = ts ++ (d.tokens ++ List.replicate m (.symbol .closing)) := by
  induction h generalizing k with
  | nil =>
    obtain ⟨d', htokens, -⟩ := d.exists_looser k.zero_le
    exact ⟨0, d', by rw [htokens, List.replicate_zero, List.append_nil, List.nil_append]⟩
  | group h ih =>
    obtain ⟨inner, htokens, -⟩ := d.exists_looser k.zero_le
    obtain ⟨m, d', hd'⟩ := ih (.group inner) h.le_four
    exact ⟨m + 1, d', by simp [hd', Derivation.tokens, htokens, List.replicate_succ]⟩
  | prefixed hs h ih =>
    obtain rfl : k = 4 := le_antisymm d.le_four hp
    obtain ⟨m, d', hd'⟩ := ih (.prefixed _ _ hs d) h.le_four
    exact ⟨m, d', by simp [hd', Derivation.tokens]⟩
  | infixed hs hle left h ih =>
    obtain ⟨right, htokens, -⟩ := d.exists_looser hp
    obtain ⟨m, d', hd'⟩ := ih (.infixed _ _ hs rfl left right) hle
    exact ⟨m, d', by simp [hd', Derivation.tokens, htokens]⟩

/-- Wherever the pass arrives, an operand and closing parentheses complete a sentence. -/
theorem Reading.Derives.exists_completion {r : Reading α} {ts : List (Token α)} (h : r.Derives ts) :
    ∃ (us : List (Token α)) (d : Derivation α 0), d.tokens = ts ++ us ∧
      ∀ t ∈ us, t = .name ['x'] ∨ t = .symbol .closing := by
  cases r with
  | before frames =>
    obtain ⟨p, hopened⟩ := h
    obtain ⟨m, d, hd⟩ := hopened.exists_closed (.name ['x']) hopened.le_four
    refine ⟨_, d, hd, List.forall_mem_append.mpr ⟨?_, ?_⟩⟩
    · exact List.forall_mem_singleton.mpr (.inl rfl)
    · exact fun t ht => .inr (List.eq_of_mem_replicate ht)
  | after frames tree =>
    obtain ⟨p, earlier, d, hopened, rfl, -⟩ := h
    obtain ⟨m, d', hd'⟩ := hopened.exists_closed d hopened.le_four
    refine ⟨List.replicate m (.symbol .closing), d', by rw [hd', List.append_assoc], ?_⟩
    exact fun t ht => .inr (List.eq_of_mem_replicate ht)

/-- The pass reads exactly the tokens with which a sentence can begin. -/
theorem viable_iff {ts : List (Token α)} : Viable ts ↔ ∃ r, start.nextAll? ts = some r := by
  constructor
  · rintro ⟨d, us, hus⟩
    obtain ⟨frames, tree, hread, -⟩ := d.nextAll?_tokens [] fun _ => trivial
    rw [← hus, nextAll?_append] at hread
    obtain ⟨r, hr, -⟩ := Option.bind_eq_some_iff.mp hread
    exact ⟨r, hr⟩
  · rintro ⟨r, hr⟩
    obtain ⟨us, d, hd, -⟩ := (derives_of_nextAll? hr).exists_completion
    exact ⟨d, us, hd.symm⟩

section Due

variable {ts : List (Token Numeral)}

def Expected.behindOperand (ts : List (Token Numeral)) : Expected :=
  if ts.count (.symbol .closing) < ts.count (.symbol .opening) then .operatorInGroup
  else .operatorOrEnd

/-- What is due behind the tokens. -/
def Expected.due (ts : List (Token Numeral)) : Expected :=
  match ts.getLast? with
  | none => .expression
  | some (.symbol .opening) => .expression
  | some (.symbol .closing) => behindOperand ts
  | some (.symbol _) => .operand
  | some _ => behindOperand ts

/-- The token can be the last one of an operand. -/
def Token.EndsOperand (t : Token α) : Prop := ∀ s, t = .symbol s → s = .closing

theorem Derivation.count_tokens {p : Nat} (d : Derivation Numeral p) :
    d.tokens.count (.symbol .opening) = d.tokens.count (.symbol .closing) := by
  induction d with
  | literal n => rfl
  | name text => rfl
  | group inner ih => simp [tokens, ih]
  | prefixed s op hs operand ih => cases s <;> cases hs <;> simpa [tokens] using ih
  | infixed s op hs hp left right ihLeft ihRight =>
    cases s <;> cases hs <;> simp [tokens, ihLeft, ihRight]
  | tighter hp inner ih => exact ih

theorem Derivation.getLast?_tokens {p : Nat} (d : Derivation α p) :
    ∃ t, d.tokens.getLast? = some t ∧ t.EndsOperand := by
  induction d with
  | literal x => exact ⟨_, rfl, nofun⟩
  | name text => exact ⟨_, rfl, nofun⟩
  | group inner ih =>
    refine ⟨.symbol .closing, ?_, fun s hs => (Token.symbol.inj hs).symm⟩
    rw [tokens, ← List.cons_append]
    exact List.getLast?_concat
  | prefixed s op hs operand ih =>
    obtain ⟨t, ht, hends⟩ := ih
    exact ⟨t, by simp [tokens, List.getLast?_cons, ht], hends⟩
  | infixed s op hs hp left right ihLeft ihRight =>
    obtain ⟨t, ht, hends⟩ := ihRight
    exact ⟨t, by simp [tokens, List.getLast?_cons, ht], hends⟩
  | tighter hp inner ih => exact ih

theorem Frame.Opened.count {p : Nat} {frames : List (Frame Numeral)} (h : Opened p frames ts) :
    ts.count (.symbol .opening) = ts.count (.symbol .closing) + frames.countP isGroup := by
  induction h with
  | nil => rfl
  | group h ih =>
    rw [List.countP_cons_of_pos rfl]
    simp [ih, Nat.add_assoc]
  | @prefixed p frames ts s op hs h ih =>
    rw [List.countP_cons_of_neg Bool.false_ne_true]
    cases s <;> cases hs <;> simpa using ih
  | @infixed p frames ts s op hs hle left h ih =>
    have hleft := left.count_tokens
    rw [List.countP_cons_of_neg Bool.false_ne_true]
    cases s <;> cases hs <;> simp [ih, hleft] <;> omega

namespace Expected

theorem due_of_endsOperand {t : Token Numeral} (h : ts.getLast? = some t) (ht : t.EndsOperand) :
    due ts = behindOperand ts := by
  rw [due, h]
  cases t with
  | symbol s => rw [ht s rfl]
  | _ => rfl

theorem due_prefix {s : Symbol} {op : Operator} (hs : s.prefixOperator? = some op) :
    due (ts ++ [.symbol s]) = .operand := by
  rw [due, List.getLast?_concat]
  cases s <;> cases hs <;> rfl

theorem due_infix {s : Symbol} {op : Operator} (hs : s.infixOperator? = some op) :
    due (ts ++ [.symbol s]) = .operand := by
  rw [due, List.getLast?_concat]
  cases s <;> cases hs <;> rfl

structure WordedAfter (ts : List (Token Numeral)) (message : String) : Prop where
  start : ts = [] ∨ ts.getLast? = some (.symbol .opening) → message = "expected expr"
  operator : ∀ s, ts.getLast? = some (.symbol s) → s ≠ .opening → s ≠ .closing →
    message = "expected literal, variable, neg, or not"
  inGroup : ∀ t, ts.getLast? = some t → t.EndsOperand →
    ts.count (.symbol .closing) < ts.count (.symbol .opening) →
      message = "expected add, subtract, multiply, divide, and, or or"
  outside : ∀ t, ts.getLast? = some t → t.EndsOperand →
    ts.count (.symbol .opening) ≤ ts.count (.symbol .closing) →
      message = "expected EOI, add, subtract, multiply, divide, and, or or"

theorem wordedAfter_due (ts : List (Token Numeral)) : WordedAfter ts (due ts).message where
  start := by
    rintro (rfl | hlast)
    · rfl
    · rw [due, hlast]
      rfl
  operator s hlast hopening hclosing := by
    rw [due, hlast]
    cases s with
    | opening => exact absurd rfl hopening
    | closing => exact absurd rfl hclosing
    | _ => rfl
  inGroup t hlast ht hopen := by
    rw [due_of_endsOperand hlast ht, behindOperand, if_pos hopen]
    rfl
  outside t hlast ht hclosed := by
    rw [due_of_endsOperand hlast ht, behindOperand, if_neg hclosed.not_gt]
    rfl

end Expected

/-- The pass knows what is due behind the tokens that it has read. -/
theorem Reading.Derives.expected_eq {r : Reading Numeral} (h : r.Derives ts) :
    r.expected = .due ts := by
  cases r with
  | before frames =>
    obtain ⟨p, hopened⟩ := h
    cases hopened with
    | nil => rfl
    | group hopened => rw [Expected.due, List.getLast?_concat]; rfl
    | prefixed hs hopened => rw [Expected.due_prefix hs]; rfl
    | infixed hs hle left hopened =>
      rw [← List.append_assoc, Expected.due_infix hs]
      rfl
  | after frames tree =>
    obtain ⟨p, earlier, d, hopened, rfl, -⟩ := h
    obtain ⟨t, ht, hends⟩ := d.getLast?_tokens
    rw [← List.getLast?_append_of_ne_nil earlier d.tokens_ne_nil] at ht
    have hcount : (earlier ++ d.tokens).count (.symbol .closing) <
        (earlier ++ d.tokens).count (.symbol .opening) ↔ frames.any isGroup = true := by
      rw [List.count_append, List.count_append, hopened.count, d.count_tokens, List.any_eq_true,
        ← List.countP_pos_iff]
      omega
    rw [Expected.due_of_endsOperand ht hends, Expected.behindOperand, Reading.expected]
    simp only [hcount]

end Due

end DecisionDiagrams
