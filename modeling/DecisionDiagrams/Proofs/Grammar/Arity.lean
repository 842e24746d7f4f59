import DecisionDiagrams.Grammar.Expression
import DecisionDiagrams.Proofs.Expr.Meaning

/-! In the tree of a text every operator has as many operands as it takes. While the text is
read, every operator that waits lacks exactly its last operand. -/
namespace DecisionDiagrams

variable {α : Type}

namespace Symbol

theorem arity_of_prefixOperator? {s : Symbol} {op : Operator} (h : s.prefixOperator? = some op) :
    op.arity = 1 := by
  cases s <;> cases h <;> rfl

theorem arity_of_infixOperator? {s : Symbol} {op : Operator} (h : s.infixOperator? = some op) :
    op.arity = 2 := by
  cases s <;> cases h <;> rfl

end Symbol

/-- An operator that waits lacks its last operand only. -/
def Frame.ArityCorrect : Frame α → Prop
  | .group => True
  | .awaiting op earlier => earlier.length + 1 = op.arity ∧ ∀ e ∈ earlier, e.ArityCorrect

theorem Frame.ArityCorrect.apply {op : Operator} {earlier : List (Expr α)} {tree : Expr α}
    (h : (Frame.awaiting op earlier).ArityCorrect) (htree : tree.ArityCorrect) :
    (Expr.apply op (earlier ++ [tree])).ArityCorrect := by
  obtain ⟨hlength, hearlier⟩ := h
  refine .apply (by simpa using hlength) fun e he => ?_
  rcases List.mem_append.mp he with he | he
  · exact hearlier e he
  · exact List.mem_singleton.mp he ▸ htree

theorem Frame.fold_arityCorrect (precedence : Nat) {frames : List (Frame α)} {tree : Expr α}
    (hframes : ∀ f ∈ frames, f.ArityCorrect) (htree : tree.ArityCorrect) :
    (∀ f ∈ (fold precedence frames tree).1, f.ArityCorrect) ∧
      (fold precedence frames tree).2.ArityCorrect := by
  fun_induction fold precedence frames tree with
  | case1 op earlier frames tree h ih =>
    obtain ⟨hframe, hframes⟩ := List.forall_mem_cons.mp hframes
    exact ih hframes (hframe.apply htree)
  | case2 op earlier frames tree h => exact ⟨hframes, htree⟩
  | case3 tree frames h => exact ⟨hframes, htree⟩

namespace Reading

def ArityCorrect : Reading α → Prop
  | before frames => ∀ f ∈ frames, f.ArityCorrect
  | after frames tree => (∀ f ∈ frames, f.ArityCorrect) ∧ tree.ArityCorrect

theorem start_arityCorrect : (start : Reading α).ArityCorrect := by simp [start, ArityCorrect]

theorem ArityCorrect.next? {r r' : Reading α} {t : Token α} (h : r.ArityCorrect)
    (hnext : r.next? t = some r') : r'.ArityCorrect := by
  unfold Reading.next? at hnext
  split at hnext
  next frames x => cases hnext; exact ⟨h, .literal x⟩
  next frames text => cases hnext; exact ⟨h, .variable _⟩
  next frames s =>
    split at hnext
    next => cases hnext; exact List.forall_mem_cons.mpr ⟨trivial, h⟩
    next =>
      obtain ⟨op, hop, rfl⟩ := Option.map_eq_some_iff.mp hnext
      have harity := Symbol.arity_of_prefixOperator? hop
      exact List.forall_mem_cons.mpr ⟨⟨harity.symm, by simp⟩, h⟩
  next frames tree s =>
    obtain ⟨hframes, htree⟩ := h
    split at hnext
    next =>
      have hfold := Frame.fold_arityCorrect 0 hframes htree
      split at hnext
      next frames' tree' heq =>
        cases hnext
        rw [heq] at hfold
        exact ⟨(List.forall_mem_cons.mp hfold.1).2, hfold.2⟩
      next => cases hnext
    next =>
      obtain ⟨op, hop, rfl⟩ := Option.map_eq_some_iff.mp hnext
      have harity := Symbol.arity_of_infixOperator? hop
      have hfold := Frame.fold_arityCorrect op.precedence hframes htree
      exact List.forall_mem_cons.mpr ⟨⟨harity.symm, by simpa using hfold.2⟩, hfold.1⟩
  next => cases hnext

theorem ArityCorrect.tree? {r : Reading α} {e : Expr α} (h : r.ArityCorrect)
    (htree : r.tree? = some e) : e.ArityCorrect := by
  unfold Reading.tree? at htree
  split at htree
  next => cases htree
  next frames tree =>
    have hfold := Frame.fold_arityCorrect 0 h.1 h.2
    split at htree
    next heq => cases htree; rw [heq] at hfold; exact hfold.2
    next => cases htree

theorem ArityCorrect.run {finish : Position} {r : Reading α} {tokens : List (Located (Token α))}
    {e : Expr α} (h : r.ArityCorrect) (hrun : r.run finish tokens = .ok e) : e.ArityCorrect := by
  induction tokens generalizing r with
  | nil =>
    unfold Reading.run at hrun
    split at hrun
    next htree => cases hrun; exact h.tree? htree
    next => cases hrun
  | cons token tokens ih =>
    unfold Reading.run at hrun
    split at hrun
    next hnext => exact ih (h.next? hnext) hrun
    next => cases hrun

end Reading

theorem Lexed.tree_arityCorrect {l : Lexed α} {e : Expr α} (h : l.tree = .ok e) :
    e.ArityCorrect := Reading.start_arityCorrect.run h

theorem parse_arityCorrect [Scalar α] {text : String} {e : Expr α} (h : parse text = .ok e) :
    e.ArityCorrect := by
  unfold parse parseWith at h
  cases hgrammatical : grammatical text with
  | error error => rw [hgrammatical] at h; cases h
  | ok written =>
    rw [hgrammatical] at h
    cases hvalues : written.values (Scalar.ofNumeral? (α := α)) with
    | error error => simp only [bind, Except.bind, hvalues] at h; cases h
    | ok l =>
      simp only [bind, Except.bind, hvalues] at h
      exact Lexed.tree_arityCorrect h

end DecisionDiagrams
