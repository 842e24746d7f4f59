import DecisionDiagrams.Proofs.Compile.Soundness
import DecisionDiagrams.Proofs.Expr.Substitution

/-! Compiling in pieces. An expression in which a name stands for the diagram of another expression
has the diagram of the whole, in which that other expression is put in for the name. -/
namespace DecisionDiagrams

open Scalar

theorem Bindings.getElem?_insert_of_ne (bindings : Bindings) {x name : String} (h : name ≠ x)
    (d : Nat) : (bindings.insert x d)[name]? = bindings[name]? := by
  rw [Std.TreeMap.getElem?_insert, if_neg]
  rw [Std.LawfulEqCmp.compare_eq_iff_eq]
  exact h.symm

section Denotes

variable {α : Type} [Scalar α] {t : Table α} {env : Environment α} {e part : Expr α} {x : String}
  {d d' : Nat}

/-- What names are worth if one of them stands for an expression. -/
def Environment.update (env : Environment α) (x : String) (part : Expr α) : Environment α :=
  fun truth => Function.update (env truth) x (part.value? (env truth))

theorem Table.Denotes.substitute (h : t.Denotes (env.update x part) e d) :
    t.Denotes env (e.substitute x part) d where
  lt_size := h.lt_size
  value truth := by
    rw [Expr.value?_substitute]
    exact h.value truth

/-- A name that is bound to the diagram of an expression is worth as much as the expression. -/
theorem Table.Binds.insert {bindings : Bindings} (hpart : t.Denotes env part d)
    (h : ∀ name, e.Mentions name → name ≠ x →
      ∃ d, bindings[name]? = some d ∧ t.Denotes env (.variable name) d) :
    t.Binds (env.update x part) (bindings.insert x d) e := by
  intro name hname
  by_cases hx : name = x
  · subst hx
    refine ⟨d, Std.TreeMap.getElem?_insert_self, hpart.lt_size, fun truth => ?_⟩
    rw [Expr.value?, Environment.update, Function.update_self]
    exact hpart.value truth
  · obtain ⟨d', hd', hdenotes⟩ := h name hname hx
    refine ⟨d', (bindings.getElem?_insert_of_ne hx d).trans hd', hdenotes.lt_size, ?_⟩
    intro truth
    rw [Expr.value?, Environment.update, Function.update_of_ne hx]
    exact hdenotes.value truth

/-- An expression has one diagram. -/
theorem Table.Denotes.unique [LawfulScalar α] {levels : Nat} (ht : t.WellFormed levels)
    (h : t.Denotes env e d) (h' : t.Denotes env e d') : d = d' := by
  apply (ht.eq_iff_same h.lt_size h'.lt_size).mpr
  intro a
  obtain ⟨y, hy, hsame⟩ := h.value a.truth
  obtain ⟨y', hy', hsame'⟩ := h'.value a.truth
  cases hy.symm.trans hy'
  exact hsame.trans hsame'.symm

end Denotes

namespace Manager

section Interprets

variable {α : Type} {m : Manager α} {given : Bindings} {e part : Expr α} {x : String}

def InterpretsExcept (m : Manager α) (given : Bindings) (x : String) (e : Expr α) : Prop :=
  ∀ name, e.Mentions name → name ≠ x → ∃ d, given[name]? = some d ∧ m.contains d = true

theorem Interprets.substitute (hpart : m.Interprets given part)
    (h : m.InterpretsExcept given x e) : m.Interprets given (e.substitute x part) := by
  intro name hname
  rcases hname.of_substitute with ⟨hname, hne⟩ | hname
  · exact h name hname hne
  · exact hpart name hname

theorem InterpretsExcept.insert (h : m.InterpretsExcept given x e) {d : Nat}
    (hd : m.contains d = true) : m.Interprets (given.insert x d) e := by
  intro name hname
  by_cases hx : name = x
  · subst hx
    exact ⟨d, Std.TreeMap.getElem?_insert_self, hd⟩
  · obtain ⟨d', hd', hcontains⟩ := h name hname hx
    exact ⟨d', (given.getElem?_insert_of_ne hx d).trans hd', hcontains⟩

end Interprets

variable {α : Type} [Scalar α] {m m' later : Manager α} {given : Bindings} {e part : Expr α}
  {x : String} {d : Nat}

/-- Some requests, none of which clears the manager, lead from `m` to `m'`. -/
def Later (m m' : Manager α) : Prop :=
  ∃ requests : List (Request α), (∀ r ∈ requests, r ≠ .clear) ∧ m' = m.afterAll requests

theorem Reachable.of_compileExpr (hm : m.Reachable) {naming : Naming} {result : Except Failure Nat}
    (h : m.compileExpr e naming = (result, m')) : m'.Reachable := by
  have hafter := hm.afterAll [.compileExpr e naming]
  rwa [show m.afterAll [.compileExpr e naming] = m' from congrArg Prod.snd h] at hafter

variable [LawfulScalar α]

theorem WellFormed.denotes_of_compileExpr (hm : m.WellFormed) (harity : e.ArityCorrect)
    {env : Environment α} (hbinds : m.table.Binds env given e)
    (h : m.compileExpr e (.interpretation given) = (.ok d, m')) : m'.table.Denotes env e d := by
  obtain ⟨d', m'', hcompile, hdenotes⟩ := hm.exists_compileExpr harity hbinds
  cases hcompile.symm.trans h
  exact hdenotes

theorem WellFormed.keeps_of_later (hm : m.WellFormed) (h : m.Later m') : m.Keeps m' := by
  obtain ⟨requests, hrequests, rfl⟩ := h
  exact hm.keeps_afterAll hrequests

section Pieces

variable {m₀ m₀' m₁ m₁' m₂ m₂' : Manager α} {d₁ d₂ : Nat} (he : e.ArityCorrect)
  (hpart : part.ArityCorrect)
include he hpart

/-- The expression around a part has a diagram of the whole, if the name of the part stands for its
diagram. -/
theorem WellFormed.denotes_of_pieces (hm₀ : m₀.WellFormed) (h₀ : m₀.Interprets given part)
    (hcompile₀ : m₀.compileExpr part (.interpretation given) = (.ok d, m₀'))
    (hkeeps : m₀'.Keeps m₁) (h₁ : m₁.InterpretsExcept given x e)
    (hcompile₁ : m₁.compileExpr e (.interpretation (given.insert x d)) = (.ok d₁, m₁'))
    (hlater : m₁'.Keeps later) :
    m₁'.table.Denotes (later.worth given) (e.substitute x part) d₁ := by
  have hgrows₁ := ((hkeeps.wellFormed.keeps_of_compileExpr hcompile₁).trans hlater).grows.table
  have hkeeps₀ := (hm₀.keeps_of_compileExpr hcompile₀).trans hkeeps
  have hd : m₀'.table.Denotes (later.worth given) part d :=
    hm₀.denotes_of_compileExpr hpart (h₀.binds (hkeeps₀.grows.table.trans hgrows₁)) hcompile₀
  have hbinds : m₁.table.Binds ((later.worth given).update x part) (given.insert x d) e := by
    apply Table.Binds.insert (hd.grows hkeeps.grows.table)
    intro name hname hne
    obtain ⟨d', hd', hcontains⟩ := h₁ name hname hne
    exact ⟨d', hd', denotes_worth hgrows₁ hd' hcontains⟩
  exact (hkeeps.wellFormed.denotes_of_compileExpr he hbinds hcompile₁).substitute

theorem WellFormed.eq_of_pieces (hm₀ : m₀.WellFormed) (h₀ : m₀.Interprets given part)
    (hcompile₀ : m₀.compileExpr part (.interpretation given) = (.ok d, m₀'))
    (hkeeps : m₀'.Keeps m₁) (h₁ : m₁.InterpretsExcept given x e)
    (hcompile₁ : m₁.compileExpr e (.interpretation (given.insert x d)) = (.ok d₁, m₁'))
    (hm₂ : m₂.WellFormed) (h₂ : m₂.Interprets given (e.substitute x part))
    (hcompile₂ : m₂.compileExpr (e.substitute x part) (.interpretation given) = (.ok d₂, m₂'))
    (hlater₁ : m₁'.Keeps later) (hlater₂ : m₂'.Keeps later) : d₁ = d₂ := by
  have hd₁ := hm₀.denotes_of_pieces he hpart h₀ hcompile₀ hkeeps h₁ hcompile₁ hlater₁
  have hgrows₂ := ((hm₂.keeps_of_compileExpr hcompile₂).trans hlater₂).grows.table
  have hd₂ := hm₂.denotes_of_compileExpr (he.substitute hpart) (h₂.binds hgrows₂) hcompile₂
  exact (hd₁.grows hlater₁.grows.table).unique hlater₁.wellFormed.table
    (hd₂.grows hlater₂.grows.table)

/-- An expression around a name that stands for the diagram of a part, and the whole in which the
part is put in for the name, compile to the same diagram. The whole may be compiled first, or
between the part and the expression around it, or last, and whatever is asked in between. -/
theorem compilation_in_pieces (hm₀ : m₀.Reachable) (h₀ : m₀.Interprets given part) :
    ∃ d m₀', m₀.compileExpr part (.interpretation given) = (.ok d, m₀') ∧
      ∀ m₁ : Manager α, m₀'.Later m₁ → m₁.InterpretsExcept given x e →
        ∃ d₁ m₁', m₁.compileExpr e (.interpretation (given.insert x d)) = (.ok d₁, m₁') ∧
          ∀ m₂ : Manager α, m₂.Reachable → m₂.InterpretsExcept given x e →
            m₂.Interprets given part →
            ∃ d₂ m₂', m₂.compileExpr (e.substitute x part) (.interpretation given) =
                (.ok d₂, m₂') ∧
              (m₂'.Later m₀ ∨ (m₀'.Later m₂ ∧ m₂'.Later m₁) ∨ m₁'.Later m₂ → d₁ = d₂) := by
  have hwell₀ := hm₀.wellFormed
  obtain ⟨d, m₀', hcompile₀, hd⟩ := hwell₀.compileExpr_denotes hpart h₀
  refine ⟨d, m₀', hcompile₀, ?_⟩
  intro m₁ hlater h₁
  have hkeeps₀ := hwell₀.keeps_of_compileExpr hcompile₀
  have hkeeps := hkeeps₀.wellFormed.keeps_of_later hlater
  have hwell₁ := hkeeps.wellFormed
  have hcontains : m₁.contains d = true := decide_eq_true (hkeeps.grows.table.lt hd.lt_size)
  obtain ⟨d₁, m₁', hcompile₁, -⟩ := hwell₁.compileExpr_denotes he (h₁.insert hcontains)
  refine ⟨d₁, m₁', hcompile₁, ?_⟩
  intro m₂ hm₂ h₂ h₂'
  have hwhole := h₂'.substitute h₂
  have hwell₂ := hm₂.wellFormed
  obtain ⟨d₂, m₂', hcompile₂, -⟩ := hwell₂.compileExpr_denotes (he.substitute hpart) hwhole
  refine ⟨d₂, m₂', hcompile₂, ?_⟩
  have hkeeps₁ := hwell₁.keeps_of_compileExpr hcompile₁
  have hkeeps₂ := hwell₂.keeps_of_compileExpr hcompile₂
  -- All diagrams are compared in the manager that the last of the three compilations leaves.
  have hpieces {later : Manager α} (h₁' : m₁'.Keeps later) (h₂' : m₂'.Keeps later) : d₁ = d₂ :=
    hwell₀.eq_of_pieces he hpart h₀ hcompile₀ hkeeps h₁ hcompile₁ hwell₂ hwhole hcompile₂ h₁' h₂'
  rintro (hfirst | ⟨-, hbetween⟩ | hlast)
  · have hbefore := (hkeeps₂.wellFormed.keeps_of_later hfirst).trans (hkeeps₀.trans hkeeps)
    exact hpieces hkeeps₁.wellFormed.keeps (hbefore.trans hkeeps₁)
  · have hbefore := hkeeps₂.wellFormed.keeps_of_later hbetween
    exact hpieces hkeeps₁.wellFormed.keeps (hbefore.trans hkeeps₁)
  · have hafter := hkeeps₁.wellFormed.keeps_of_later hlast
    exact hpieces (hafter.trans hkeeps₂) hkeeps₂.wellFormed.keeps

end Pieces

theorem conjunction_compiled_in_pieces :
    let m := ((initial : Manager Float).indicator "p").2
    let given := (∅ : Bindings).insert "y" ((initial : Manager Float).indicator "p").1
    let part : Expr Float := .apply .not [.variable "y"]
    let e : Expr Float := .apply .and [.variable "x", .variable "y"]
    e.ArityCorrect ∧ part.ArityCorrect ∧ m.Reachable ∧ m.Interprets given part ∧
      ∃ d m', m.compileExpr part (.interpretation given) = (.ok d, m') ∧
        ∃ d₁ m₁', (m'.afterAll [.indicator "q"]).compileExpr e
            (.interpretation (given.insert "x" d)) = (.ok d₁, m₁') ∧
          ∃ m₂', (m₁'.afterAll [.constant 2]).compileExpr (e.substitute "x" part)
            (.interpretation given) = (.ok d₁, m₂') := by
  intro m given part e
  have he : e.ArityCorrect := .apply rfl (by simp [Expr.ArityCorrect.variable])
  have hpart : part.ArityCorrect := .apply rfl (by simp [Expr.ArityCorrect.variable])
  have hm : m.Reachable := ⟨[.indicator "p"], rfl⟩
  have hmentions (name : String) (h : part.Mentions name) : "y" = name := by
    simpa [part, Expr.mentions_apply] using h
  have hothers (name : String) (h : e.Mentions name) (hne : name ≠ "x") : "y" = name := by
    have hxy : "x" = name ∨ "y" = name := by simpa [e, Expr.mentions_apply] using h
    exact hxy.resolve_left hne.symm
  have hp : m.contains ((initial : Manager Float).indicator "p").1 = true :=
    decide_eq_true (initial_wellFormed.puts_indicator "p").lt_size
  have hy {m' : Manager Float} (hkeeps : m.Keeps m') :
      ∃ d, given["y"]? = some d ∧ m'.contains d = true :=
    ⟨_, Std.TreeMap.getElem?_insert_self,
      decide_eq_true (hkeeps.grows.table.lt (lt_of_contains hp))⟩
  have hgiven {m' : Manager Float} (hkeeps : m.Keeps m') :
      m'.Interprets given part ∧ m'.InterpretsExcept given "x" e :=
    ⟨fun name hname => hmentions name hname ▸ hy hkeeps,
      fun name hname hne => hothers name hname hne ▸ hy hkeeps⟩
  have hgiven₀ := (hgiven hm.wellFormed.keeps).1
  obtain ⟨d, m', hcompile, hpieces⟩ := compilation_in_pieces he hpart hm hgiven₀
  have hkeeps := hm.wellFormed.keeps_of_compileExpr hcompile
  have hlater : m'.Later (m'.afterAll [.indicator "q"]) := ⟨_, by simp, rfl⟩
  have hkeeps₁ := hkeeps.trans (hkeeps.wellFormed.keeps_of_later hlater)
  obtain ⟨d₁, m₁', hcompile₁, hwhole⟩ := hpieces _ hlater (hgiven hkeeps₁).2
  have hlater₁ : m₁'.Later (m₁'.afterAll [.constant 2]) := ⟨_, by simp, rfl⟩
  have hkeeps₁' := hkeeps₁.trans (hkeeps₁.wellFormed.keeps_of_compileExpr hcompile₁)
  have hkeeps₂ := hkeeps₁'.trans (hkeeps₁'.wellFormed.keeps_of_later hlater₁)
  have hm₂ : (m₁'.afterAll [.constant 2]).Reachable :=
    (((hm.of_compileExpr hcompile).afterAll _).of_compileExpr hcompile₁).afterAll _
  obtain ⟨d₂, m₂', hcompile₂, heq⟩ := hwhole _ hm₂ (hgiven hkeeps₂).2 (hgiven hkeeps₂).1
  obtain rfl := heq (.inr (.inr hlater₁))
  exact ⟨he, hpart, hm, hgiven₀, d, m', hcompile, d₁, m₁', hcompile₁, m₂', hcompile₂⟩

end Manager

end DecisionDiagrams
