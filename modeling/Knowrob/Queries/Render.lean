import Knowrob.Queries.Reading

/-!
# Writing formulas as queries

The text of a formula in the query language, as the precedence of the grammar asks for it: `,`
for AND, `;` for OR, `->` for IMPL, `~` and the modal letter as prefixes, and brackets around an
operand only where its connective binds more loosely than the place it is written in (unary 0,
AND 1, OR 2, IMPL 3; the right operand of IMPL is at level 3, its left operand at level 2).

The parser builds conjunctions and disjunctions with `&` and `|`, which splice operands of the
same kind, so what it gives back is a formula up to that splicing: `flatten`. Flattening does not
change the text (`render_flatten`), and a flattened formula has no operand of the same kind as the
connective above it (`isFlat_flatten`), which is the shape the parse lemmas are proved for.
-/

namespace Knowrob

open QueryParser

/-- The text of an argument: a variable, an atom, or a compound. -/
def Term.render : Term → List Char
  | .variable x => x.data
  | .string a => a.data
  | .predicate f args => f.data ++ '(' :: renderArguments args ++ [')']
  | _ => []
where
  /-- The arguments, separated by `,`. -/
  renderArguments : List Term → List Char
    | [] => []
    | [t] => t.render
    | t :: u :: ts => t.render ++ ',' :: renderArguments (u :: ts)

/-- The arguments a formula of the round trip may have: variables (upper-case identifiers), atoms
(lower-case identifiers), and compounds of them with at least one argument. -/
def Term.isPlainArgument : Term → Bool
  | .variable x => isIdent Char.isUpper x.data
  | .string a => isIdent Char.isLower a.data
  | .predicate f args => isIdent Char.isLower f.data && !args.isEmpty && allPlain args
  | _ => false
where
  /-- All arguments are plain. -/
  allPlain : List Term → Bool
    | [] => true
    | t :: ts => t.isPlainArgument && allPlain ts

/-- An operator without options. -/
def ModalOperator.isOptionFree : ModalOperator → Bool
  | .knowledge none | .belief none none | .oncePast none | .alwaysPast none => true
  | _ => false

namespace Formula

/-- The level of a formula's top connective: unary 0, AND 1, OR 2, IMPL 3. -/
def level : Formula → Nat
  | .conjunction _ => 1
  | .disjunction _ => 2
  | .implication _ _ => 3
  | _ => 0

def bracketIf (b : Bool) (t : List Char) : List Char := if b then '(' :: t ++ [')'] else t

mutual
def render : Formula → List Char
  | .predicate ⟨f, []⟩ => f.data
  | .predicate ⟨f, args⟩ => f.data ++ '(' :: Term.render.renderArguments args ++ [')']
  | .negation φ => '~' :: bracketIf (0 < φ.level) (render φ)
  | .modal op φ => op.symbol :: bracketIf (0 < φ.level) (render φ)
  | .conjunction φs => renderList 1 ',' φs
  | .disjunction φs => renderList 2 ';' φs
  | .implication φ ψ => bracketIf (2 < φ.level) (render φ) ++ '-' :: '>' :: render ψ

/-- The operands of a connective at level `L`, separated by `c`. -/
def renderList (L : Nat) (c : Char) : List Formula → List Char
  | [] => []
  | [φ] => bracketIf (L < φ.level) (render φ)
  | φ :: ψ :: φs => bracketIf (L < φ.level) (render φ) ++ c :: renderList L c (ψ :: φs)
end

/-- The text of `φ` as an operand at level `L`. -/
def renderOperand (L : Nat) (φ : Formula) : List Char := bracketIf (L < φ.level) (render φ)

/-- The operands `φ` contributes to a connective at level `L`: its own if it is that connective. -/
def spliced (L : Nat) : Formula → List Formula
  | .conjunction φs => if L = 1 then φs else [.conjunction φs]
  | .disjunction φs => if L = 2 then φs else [.disjunction φs]
  | φ => [φ]

mutual
/-- Modelled from the spec: a formula with nested conjunctions and disjunctions spliced into the
connective of the same kind above them. -/
def flatten : Formula → Formula
  | .predicate p => .predicate p
  | .negation φ => .negation (flatten φ)
  | .conjunction φs => .conjunction (flattenList 1 φs)
  | .disjunction φs => .disjunction (flattenList 2 φs)
  | .implication φ ψ => .implication (flatten φ) (flatten ψ)
  | .modal op φ => .modal op (flatten φ)

/-- The flattened operands of a connective at level `L`. -/
def flattenList (L : Nat) : List Formula → List Formula
  | [] => []
  | φ :: φs => spliced L (flatten φ) ++ flattenList L φs
end

mutual
/-- The formulas of the round trip: predicates with a lower-case functor and plain arguments,
negations, option-free modal formulas, conjunctions and disjunctions of at least two operands,
and implications. -/
def inFragment : Formula → Bool
  | .predicate ⟨f, args⟩ => isIdent Char.isLower f.data && Term.isPlainArgument.allPlain args
  | .negation φ => inFragment φ
  | .conjunction φs => decide (2 ≤ φs.length) && allInFragment φs
  | .disjunction φs => decide (2 ≤ φs.length) && allInFragment φs
  | .implication φ ψ => inFragment φ && inFragment ψ
  | .modal op φ => op.isOptionFree && inFragment φ

def allInFragment : List Formula → Bool
  | [] => true
  | φ :: φs => inFragment φ && allInFragment φs
end

mutual
/-- No conjunction has a conjunction as an operand, and no disjunction a disjunction. -/
def isFlat : Formula → Bool
  | .predicate _ => true
  | .negation φ => isFlat φ
  | .conjunction φs => allFlatBelow 1 φs
  | .disjunction φs => allFlatBelow 2 φs
  | .implication φ ψ => isFlat φ && isFlat ψ
  | .modal _ φ => isFlat φ

/-- All operands are flat, and none is at level `L`. -/
def allFlatBelow (L : Nat) : List Formula → Bool
  | [] => true
  | φ :: φs => φ.level != L && isFlat φ && allFlatBelow L φs
end

/-! ### Flattening keeps the text -/

@[simp] theorem level_flatten (φ : Formula) : φ.flatten.level = φ.level := by
  cases φ <;> rfl

theorem renderList_cons_cons (L : Nat) (c : Char) (φ ψ : Formula) (φs : List Formula) :
    renderList L c (φ :: ψ :: φs) = renderOperand L φ ++ c :: renderList L c (ψ :: φs) := by
  simp [renderList, renderOperand]

@[simp] theorem renderList_singleton (L : Nat) (c : Char) (φ : Formula) :
    renderList L c [φ] = renderOperand L φ := by
  simp [renderList, renderOperand]

theorem renderList_append (L : Nat) (c : Char) {xs ys : List Formula} (hxs : xs ≠ []) (hys : ys ≠ []) :
    renderList L c (xs ++ ys) = renderList L c xs ++ c :: renderList L c ys := by
  induction xs with
  | nil => exact absurd rfl hxs
  | cons φ xs ih =>
    obtain _ | ⟨y, ys'⟩ := ys
    · exact absurd rfl hys
    cases xs with
    | nil => simp [renderList_cons_cons]
    | cons ψ xs =>
      have := ih (List.cons_ne_nil _ _)
      simp only [List.cons_append] at this ⊢
      rw [renderList_cons_cons, this, renderList_cons_cons]
      simp

/-- The separator of the connective at level `L`. -/
def IsSeparator (L : Nat) (c : Char) : Prop := (L = 1 ∧ c = ',') ∨ (L = 2 ∧ c = ';')

theorem renderList_spliced {L : Nat} {c : Char} (hc : IsSeparator L c) (ψ : Formula) :
    renderList L c (spliced L ψ) = renderOperand L ψ := by
  rcases hc with ⟨rfl, rfl⟩ | ⟨rfl, rfl⟩ <;> cases ψ <;> simp [spliced, render, renderOperand, level, bracketIf]

theorem spliced_ne_nil {L : Nat} : ∀ {ψ : Formula}, ψ.inFragment → spliced L ψ ≠ []
  | .conjunction φs, h | .disjunction φs, h => by
    simp only [inFragment, Bool.and_eq_true, decide_eq_true_eq] at h
    simp only [spliced]
    split_ifs <;> first | exact List.ne_nil_of_length_pos (by omega) | simp
  | .predicate _, _ | .negation _, _ | .implication _ _, _ | .modal _ _, _ => by simp [spliced]

theorem allInFragment_iff {φs : List Formula} : allInFragment φs ↔ ∀ φ ∈ φs, φ.inFragment := by
  induction φs with
  | nil => simp [allInFragment]
  | cons φ φs ih => simp [allInFragment, ih]

theorem allInFragment_spliced {L : Nat} : ∀ {ψ : Formula}, ψ.inFragment →
    ∀ χ ∈ spliced L ψ, χ.inFragment
  | .conjunction φs, h | .disjunction φs, h => by
    simp only [inFragment, Bool.and_eq_true, decide_eq_true_eq, allInFragment_iff] at h
    simp only [spliced]
    split_ifs <;> simp_all [inFragment, allInFragment_iff]
  | .predicate _, h | .negation _, h | .implication _ _, h | .modal _ _, h => by simpa [spliced]

theorem allInFragment_append {xs ys : List Formula} :
    allInFragment (xs ++ ys) = (allInFragment xs && allInFragment ys) := by
  induction xs with
  | nil => rfl
  | cons φ xs ih => simp [allInFragment, ih, Bool.and_assoc]

mutual
theorem inFragment_flatten : ∀ φ : Formula, φ.inFragment → φ.flatten.inFragment
  | .predicate _, h => h
  | .negation φ, h => inFragment_flatten φ h
  | .conjunction φs, h => by
    simp only [inFragment, Bool.and_eq_true, decide_eq_true_eq] at h
    have := flattenList_inFragment 1 φs h.2
    simp only [flatten, inFragment, this.1, Bool.and_true, decide_eq_true_eq]
    omega
  | .disjunction φs, h => by
    simp only [inFragment, Bool.and_eq_true, decide_eq_true_eq] at h
    have := flattenList_inFragment 2 φs h.2
    simp only [flatten, inFragment, this.1, Bool.and_true, decide_eq_true_eq]
    omega
  | .implication φ ψ, h => by
    simp only [inFragment, Bool.and_eq_true] at h
    simp [flatten, inFragment, inFragment_flatten φ h.1, inFragment_flatten ψ h.2]
  | .modal op φ, h => by
    simp only [inFragment, Bool.and_eq_true] at h
    simp [flatten, inFragment, h.1, inFragment_flatten φ h.2]

/-- Flattening the operands keeps them in the fragment and loses none. -/
theorem flattenList_inFragment (L : Nat) : ∀ φs : List Formula, allInFragment φs →
    allInFragment (flattenList L φs) ∧ φs.length ≤ (flattenList L φs).length
  | [], _ => ⟨rfl, le_refl _⟩
  | φ :: φs, h => by
    simp only [allInFragment, Bool.and_eq_true] at h
    have hφ := inFragment_flatten φ h.1
    have ih := flattenList_inFragment L φs h.2
    have hpos := List.length_pos.mpr (spliced_ne_nil (L := L) hφ)
    refine ⟨?_, ?_⟩
    · rw [flattenList, allInFragment_append, ih.1, Bool.and_true, allInFragment_iff]
      exact allInFragment_spliced hφ
    · simp only [flattenList, List.length_append, List.length_cons]
      omega
end

mutual
theorem render_flatten : ∀ φ : Formula, φ.inFragment → φ.flatten.render = φ.render
  | .predicate _, _ => rfl
  | .negation φ, h => by simp [flatten, render, render_flatten φ h]
  | .conjunction φs, h => by
    simp only [inFragment, Bool.and_eq_true, decide_eq_true_eq] at h
    exact renderList_flattenList (.inl ⟨rfl, rfl⟩) φs h.2 (List.ne_nil_of_length_pos (by omega))
  | .disjunction φs, h => by
    simp only [inFragment, Bool.and_eq_true, decide_eq_true_eq] at h
    exact renderList_flattenList (.inr ⟨rfl, rfl⟩) φs h.2 (List.ne_nil_of_length_pos (by omega))
  | .implication φ ψ, h => by
    simp only [inFragment, Bool.and_eq_true] at h
    simp [flatten, render, render_flatten φ h.1, render_flatten ψ h.2]
  | .modal op φ, h => by
    simp only [inFragment, Bool.and_eq_true] at h
    simp [flatten, render, render_flatten φ h.2]

theorem renderList_flattenList {L : Nat} {c : Char} (hc : IsSeparator L c) :
    ∀ φs : List Formula, allInFragment φs → φs ≠ [] →
      renderList L c (flattenList L φs) = renderList L c φs
  | [], _, h => absurd rfl h
  | φ :: φs, h, _ => by
    simp only [allInFragment, Bool.and_eq_true] at h
    have hspliced : renderList L c (spliced L φ.flatten) = renderOperand L φ := by
      rw [renderList_spliced hc, renderOperand, renderOperand, level_flatten, render_flatten φ h.1]
    cases φs with
    | nil => simp [flattenList, hspliced]
    | cons ψ φs =>
      have htail := renderList_flattenList hc (ψ :: φs) h.2 (List.cons_ne_nil _ _)
      have hne : flattenList L (ψ :: φs) ≠ [] := by
        simp only [flattenList]
        exact List.append_ne_nil_of_left_ne_nil
          (spliced_ne_nil (inFragment_flatten ψ (by simp_all [allInFragment]))) _
      rw [flattenList, renderList_append L c (spliced_ne_nil (inFragment_flatten φ h.1)) hne,
        hspliced, htail, renderList_cons_cons]
end

theorem allFlatBelow_append (L : Nat) {xs ys : List Formula} :
    allFlatBelow L (xs ++ ys) = (allFlatBelow L xs && allFlatBelow L ys) := by
  induction xs with
  | nil => rfl
  | cons φ xs ih => simp [allFlatBelow, ih, Bool.and_assoc]

theorem allFlatBelow_spliced {L : Nat} (hL : L = 1 ∨ L = 2) :
    ∀ {ψ : Formula}, ψ.isFlat → allFlatBelow L (spliced L ψ)
  | .conjunction _, h | .disjunction _, h => by
    rcases hL with rfl | rfl <;> simpa [spliced, isFlat, allFlatBelow, level] using h
  | .predicate _, h | .negation _, h | .implication _ _, h | .modal _ _, h => by
    rcases hL with rfl | rfl <;> simpa [spliced, allFlatBelow, level] using h

mutual
theorem isFlat_flatten : ∀ φ : Formula, φ.flatten.isFlat
  | .predicate _ => rfl
  | .negation φ | .modal _ φ => isFlat_flatten φ
  | .conjunction φs => allFlatBelow_flattenList (.inl rfl) φs
  | .disjunction φs => allFlatBelow_flattenList (.inr rfl) φs
  | .implication φ ψ => by simp [flatten, isFlat, isFlat_flatten φ, isFlat_flatten ψ]

theorem allFlatBelow_flattenList {L : Nat} (hL : L = 1 ∨ L = 2) :
    ∀ φs : List Formula, allFlatBelow L (flattenList L φs)
  | [] => rfl
  | φ :: φs => by
    rw [flattenList, allFlatBelow_append, allFlatBelow_spliced hL (isFlat_flatten φ),
      allFlatBelow_flattenList hL φs, Bool.and_true]
end

end Formula

end Knowrob
