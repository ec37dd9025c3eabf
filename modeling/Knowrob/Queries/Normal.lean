import Knowrob.Queries.Termination
import Knowrob.Queries.TimeIntervals

/-!
# The formulas parse returns

The grammar never builds a conjunction or a disjunction itself: its actions combine two operands
with `&` and `|` (`Formula.and`, `Formula.or`), and these splice an operand of the same kind. So
whatever the query, and however it is bracketed, `QueryParser::parse` returns a formula in one
normal form (`Formula.isNormal`): every conjunction has at least two operands and none of them is
a conjunction, and likewise every disjunction, at any depth. `p,(q,r)`, `(p,q),r` and `p,q,r` all
give the conjunction of three predicates.

The proof follows the rules: each rule gives a normal formula if the rules it calls do
(`formulaStep_yields`), so by induction on the fuel every formula rule does (`formulaRule_yields`).
Together with `parse_ends`, `parse` throws or returns a normal formula on every query string.

A normal formula is flat, and the text of a flat formula of the round trip's fragment parses to
the formula itself. So a parsed query in the fragment, written out and parsed again, comes back
unchanged (`parse_render_parse`): whatever spaces and brackets the query had, its text is a
canonical form of it.
-/

namespace Knowrob

namespace Formula

mutual
/-- The shape of the formulas `&` and `|` build: a conjunction has at least two operands and none
of them is a conjunction, a disjunction has at least two operands and none of them is a
disjunction, at any depth. -/
def isNormal : Formula → Bool
  | .predicate _ => true
  | .negation φ => isNormal φ
  | .conjunction φs => decide (2 ≤ φs.length) && allNormalBelow 1 φs
  | .disjunction φs => decide (2 ≤ φs.length) && allNormalBelow 2 φs
  | .implication φ ψ => isNormal φ && isNormal ψ
  | .modal _ φ => isNormal φ

/-- All operands are normal, and none is at level `L`. -/
def allNormalBelow (L : Nat) : List Formula → Bool
  | [] => true
  | φ :: φs => φ.level != L && isNormal φ && allNormalBelow L φs
end

theorem allNormalBelow_iff {L : Nat} {φs : List Formula} :
    allNormalBelow L φs = true ↔ ∀ φ ∈ φs, φ.level ≠ L ∧ φ.isNormal = true := by
  induction φs with
  | nil => simp [allNormalBelow]
  | cons φ φs ih => simp [allNormalBelow, ih]

/-- A normal formula gives `&` at least one normal operand that is no conjunction. -/
theorem conjuncts_normal {φ : Formula} (h : φ.isNormal = true) :
    1 ≤ φ.conjuncts.length ∧ allNormalBelow 1 φ.conjuncts = true := by
  cases φ with
  | conjunction φs =>
    simp only [isNormal, Bool.and_eq_true, decide_eq_true_eq] at h
    exact ⟨by simp only [conjuncts]; omega, h.2⟩
  | _ => simp [conjuncts, allNormalBelow, level, h]

/-- A normal formula gives `|` at least one normal operand that is no disjunction. -/
theorem disjuncts_normal {φ : Formula} (h : φ.isNormal = true) :
    1 ≤ φ.disjuncts.length ∧ allNormalBelow 2 φ.disjuncts = true := by
  cases φ with
  | disjunction φs =>
    simp only [isNormal, Bool.and_eq_true, decide_eq_true_eq] at h
    exact ⟨by simp only [disjuncts]; omega, h.2⟩
  | _ => simp [disjuncts, allNormalBelow, level, h]

theorem isNormal_and {φ ψ : Formula} (hφ : φ.isNormal = true) (hψ : ψ.isNormal = true) :
    (φ.and ψ).isNormal = true := by
  obtain ⟨h₁, h₂⟩ := conjuncts_normal hφ
  obtain ⟨h₃, h₄⟩ := conjuncts_normal hψ
  rw [allNormalBelow_iff] at h₂ h₄
  simp only [Formula.and, isNormal, List.length_append, Bool.and_eq_true, decide_eq_true_eq,
    allNormalBelow_iff, List.mem_append]
  exact ⟨by omega, fun χ hχ => hχ.elim (h₂ χ) (h₄ χ)⟩

theorem isNormal_or {φ ψ : Formula} (hφ : φ.isNormal = true) (hψ : ψ.isNormal = true) :
    (φ.or ψ).isNormal = true := by
  obtain ⟨h₁, h₂⟩ := disjuncts_normal hφ
  obtain ⟨h₃, h₄⟩ := disjuncts_normal hψ
  rw [allNormalBelow_iff] at h₂ h₄
  simp only [Formula.or, isNormal, List.length_append, Bool.and_eq_true, decide_eq_true_eq,
    allNormalBelow_iff, List.mem_append]
  exact ⟨by omega, fun χ hχ => hχ.elim (h₂ χ) (h₄ χ)⟩

/-! ### Normal formulas are flat -/

mutual
theorem isFlat_of_isNormal : ∀ {φ : Formula}, φ.isNormal = true → φ.isFlat = true
  | .predicate _, _ => rfl
  | .negation _, h | .modal _ _, h => by
    simp only [isNormal, isFlat] at h ⊢
    exact isFlat_of_isNormal h
  | .conjunction _, h | .disjunction _, h => by
    simp only [isNormal, Bool.and_eq_true] at h
    exact allFlatBelow_of_allNormalBelow h.2
  | .implication _ _, h => by
    simp only [isNormal, isFlat, Bool.and_eq_true] at h ⊢
    exact ⟨isFlat_of_isNormal h.1, isFlat_of_isNormal h.2⟩

theorem allFlatBelow_of_allNormalBelow {L : Nat} :
    ∀ {φs : List Formula}, allNormalBelow L φs = true → allFlatBelow L φs = true
  | [], _ => rfl
  | _ :: _, h => by
    simp only [allNormalBelow, allFlatBelow, Bool.and_eq_true] at h ⊢
    exact ⟨⟨h.1.1, isFlat_of_isNormal h.1.2⟩, allFlatBelow_of_allNormalBelow h.2⟩
end

end Formula

namespace Parser

variable {α β : Type} {P : α → Prop} {p q : Parser α}

/-- Every match of `p` gives a value satisfying `P`. -/
def Yields (P : α → Prop) (p : Parser α) : Prop := ∀ s a r, p s = .ok a r → P a

theorem yields_pure {a : α} (h : P a) : Yields P (pure a) := by
  intro s b r hb
  cases hb
  exact h

theorem Yields.orElse (hp : Yields P p) (hq : Yields P q) : Yields P (p <|> q) := by
  intro s a r h
  rcases Outcome.orElse_eq_ok.1 h with h | ⟨-, h⟩
  exacts [hp s a r h, hq s a r h]

/-- A sequence gives what its continuation gives from a value `p` yields. -/
theorem Yields.bind {Q : β → Prop} {p : Parser β} {f : β → Parser α} (hp : Yields Q p)
    (hf : ∀ b, Q b → Yields P (f b)) : Yields P (p >>= f) := by
  intro s a r h
  obtain ⟨b, s', h₁, h₂⟩ := Outcome.bind_eq_ok.1 h
  exact hf b (hp s b s' h₁) s' a r h₂

/-- A sequence gives what its continuation gives from every value. -/
theorem yields_bind {p : Parser β} {f : β → Parser α} (hf : ∀ b, Yields P (f b)) :
    Yields P (p >>= f) :=
  Yields.bind (Q := fun _ => True) (fun _ _ _ _ => trivial) fun b _ => hf b

end Parser

namespace QueryParser

open Parser Formula

variable {registry : PrefixRegistry}

theorem yields_connective {β : Type} {P : Formula → Prop} {lower self brackets : Parser Formula}
    {sep : Parser β} {combine : Formula → Formula → Formula} (hl : Yields P lower)
    (hs : Yields P self) (hb : Yields P brackets) (hc : ∀ φ ψ, P φ → P ψ → P (combine φ ψ)) :
    Yields P (connective lower self brackets sep combine) :=
  ((hl.orElse hb).bind fun φ hφ => yields_bind fun _ => (hs.orElse hb).bind fun ψ hψ =>
    yields_pure (hc φ ψ hφ hψ)).orElse hl

/-- Every formula rule gives a normal formula, whatever rules it is written with, if they do. -/
theorem formulaStep_yields {rule : FormulaRule → Parser Formula}
    (h : ∀ r, Yields (isNormal · = true) (rule r)) (n : Nat) :
    ∀ r, Yields (isNormal · = true) (formulaStep registry rule n r)
  | .formula => (h _).orElse (h _)
  | .implication => yields_connective (h _) (h _) (h _) fun _ _ hφ hψ => by simp [isNormal, hφ, hψ]
  | .disjunction => yields_connective (h _) (h _) (h _) fun _ _ => isNormal_or
  | .conjunction => yields_connective (h _) (h _) (h _) fun _ _ => isNormal_and
  | .unary => (h _).orElse <| (h _).orElse <| yields_bind fun _ => yields_pure rfl
  | .brackets => yields_bind fun _ => (h _).bind fun _ hφ => yields_bind fun _ => yields_pure hφ
  | .negation => yields_bind fun _ => ((h _).orElse (h _)).bind fun _ hφ => yields_pure hφ
  | .modalFormula => (h _).orElse <| (h _).orElse <| (h _).orElse (h _)
  | .belief | .knowledge | .oncePast | .alwaysPast =>
    yields_bind fun _ => yields_bind fun _ => ((h _).orElse (h _)).bind fun _ hφ =>
      yields_bind fun _ => yields_pure hφ

/-- Every formula rule gives a normal formula. -/
theorem formulaRule_yields : ∀ n r, Yields (isNormal · = true) (formulaRule registry n r)
  | 0, _ => fun _ _ _ h => nomatch h
  | n + 1, r => formulaStep_yields (formulaRule_yields n) n r

/-- Every formula `QueryParser::parse` returns is normal: however the query brackets its
conjunctions and disjunctions, none has fewer than two operands or an operand of its own kind. -/
theorem parse_isNormal {queryString : String} {φ : Formula}
    (h : parse registry queryString = some (.ok φ)) : φ.isNormal = true := by
  obtain ⟨r, hr, -⟩ := parse__eq_ok h
  exact formulaRule_yields _ _ _ _ _ hr

/-- `p,(q,r)` is read as the conjunction of three predicates, a normal formula. -/
theorem parse_nested_conjunction_isNormal :
    parse (fun _ _ => none) "p,(q,r)" =
      some (.ok (.conjunction [.predicate ⟨"p", []⟩, .predicate ⟨"q", []⟩, .predicate ⟨"r", []⟩]))
      ∧ (Formula.conjunction [.predicate ⟨"p", []⟩, .predicate ⟨"q", []⟩,
        .predicate ⟨"r", []⟩]).isNormal = true :=
  have h : parse (fun _ _ => none) "p,(q,r)" = some (.ok (.conjunction
      [.predicate ⟨"p", []⟩, .predicate ⟨"q", []⟩, .predicate ⟨"r", []⟩])) := rfl
  ⟨h, parse_isNormal h⟩

/-! ### Parsed, written out, parsed again -/

/-- The text of a flat formula of the fragment parses to the formula itself. -/
theorem parse_render_of_isFlat {φ : Formula} (hφ : φ.inFragment) (hf : φ.isFlat) :
    parse registry (String.mk φ.render) = some (.ok φ) := by
  have h := @reads registry φ hφ hf 3 (level_le_three _) le_rfl [] trivial
    (8 * φ.render.length + 7) (by simp only [cost]; omega)
  rw [List.append_nil, levelRule_three] at h
  have hfuel : fuelFor (String.mk φ.render) = 8 * φ.render.length + 7 + 1 := by
    simp only [fuelFor, String.length_mk]; omega
  simp only [parse, parse_, hfuel]
  rw [formulaRule.eq_2]
  simp [formulaStep, String.toList, h]

/-- A formula `parse` returns, written out and parsed again, comes back unchanged, whenever it is
in the fragment the text is written for: the text of a parsed query is a canonical form of it. -/
theorem parse_render_parse {queryString : String} {φ : Formula}
    (h : parse registry queryString = some (.ok φ)) (hφ : φ.inFragment) :
    parse registry (String.mk φ.render) = some (.ok φ) := by
  obtain ⟨r, hr, -⟩ := parse__eq_ok h
  exact parse_render_of_isFlat hφ (isFlat_of_isNormal (formulaRule_yields _ _ _ _ _ hr))

/-- `p, (q ; r) -> ~ s` is written `p,(q;r)->~s`, which parses to the same formula. -/
theorem parse_render_parse_spaced :
    parse (fun _ _ => none) "p, (q ; r) -> ~ s" = some (.ok (.implication
      (.conjunction [.predicate ⟨"p", []⟩,
        .disjunction [.predicate ⟨"q", []⟩, .predicate ⟨"r", []⟩]])
      (.negation (.predicate ⟨"s", []⟩)))) ∧
    (Formula.implication (.conjunction [.predicate ⟨"p", []⟩,
        .disjunction [.predicate ⟨"q", []⟩, .predicate ⟨"r", []⟩]])
      (.negation (.predicate ⟨"s", []⟩))).inFragment ∧
    parse (fun _ _ => none) (String.mk (Formula.implication (.conjunction [.predicate ⟨"p", []⟩,
        .disjunction [.predicate ⟨"q", []⟩, .predicate ⟨"r", []⟩]])
      (.negation (.predicate ⟨"s", []⟩))).render) = some (.ok (.implication
      (.conjunction [.predicate ⟨"p", []⟩,
        .disjunction [.predicate ⟨"q", []⟩, .predicate ⟨"r", []⟩]])
      (.negation (.predicate ⟨"s", []⟩)))) :=
  have h : parse (fun _ _ => none) "p, (q ; r) -> ~ s" = some (.ok (.implication
      (.conjunction [.predicate ⟨"p", []⟩,
        .disjunction [.predicate ⟨"q", []⟩, .predicate ⟨"r", []⟩]])
      (.negation (.predicate ⟨"s", []⟩)))) := rfl
  have hφ : (Formula.implication (.conjunction [.predicate ⟨"p", []⟩,
        .disjunction [.predicate ⟨"q", []⟩, .predicate ⟨"r", []⟩]])
      (.negation (.predicate ⟨"s", []⟩))).inFragment := by decide
  ⟨h, hφ, parse_render_parse h hφ⟩

end QueryParser

end Knowrob
