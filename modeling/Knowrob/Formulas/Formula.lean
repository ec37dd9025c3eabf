import Knowrob.Terms.Term

/-!
# Formulas and modal operators

The formula classes the query parser builds: predicates, negations, the connectives, and modal
formulas with their operators. Their headers are not part of the sources, so the types follow the
specification: a connective is a conjunction or disjunction of any number of operands, or an
implication of two, and a modal formula pairs an operator with its body.

The parser never builds a conjunction or disjunction directly: it combines operands with the
operators `&` and `|`, which splice an operand that is already of the same kind. These are
`Formula.and` and `Formula.or` below, and they are what makes the parse of `p,q,r` one conjunction
of three operands.
-/

namespace Knowrob

/-- Modelled from the spec: a time interval `{begin?, end?}` with at least one side present;
a `TimePoint` is a double. -/
structure TimeInterval where
  beginTime : Option Binary64
  endTime : Option Binary64
  nonempty : beginTime.isSome ∨ endTime.isSome
  deriving DecidableEq, Repr

/-- Modelled from the spec: the modal operators `K{agent?}`, `B{agent?, confidence?}`,
`P{interval?}` and `H{interval?}`, as the factories `KnowledgeModality::K`, `BeliefModality::B`
and `PastModality::P`, `PastModality::H` build them. -/
inductive ModalOperator where
  | knowledge (agent : Option String)
  | belief (agent : Option String) (confidence : Option Binary64)
  | oncePast (interval : Option TimeInterval)
  | alwaysPast (interval : Option TimeInterval)
  deriving DecidableEq, Repr

/-- Modelled from the spec: the one-character symbol of an operator. -/
def ModalOperator.symbol : ModalOperator → Char
  | .knowledge _ => 'K'
  | .belief _ _ => 'B'
  | .oncePast _ => 'P'
  | .alwaysPast _ => 'H'

/-- A predicate: a functor and its arguments (the arity is their number). -/
structure Predicate where
  functor : String
  arguments : List Term
  deriving DecidableEq, Repr

/-- Modelled from the spec: a formula. -/
inductive Formula where
  | predicate (p : Predicate)
  | negation (φ : Formula)
  | conjunction (φs : List Formula)
  | disjunction (φs : List Formula)
  | implication (premise conclusion : Formula)
  | modal (op : ModalOperator) (body : Formula)
  deriving Repr, Inhabited

namespace Formula

mutual
/-- Structural equality of formulas, as a function the kernel can run. -/
def beq : Formula → Formula → Bool
  | .predicate p, .predicate q => p == q
  | .negation φ, .negation ψ => beq φ ψ
  | .conjunction φs, .conjunction ψs => beqList φs ψs
  | .disjunction φs, .disjunction ψs => beqList φs ψs
  | .implication φ φ', .implication ψ ψ' => beq φ ψ && beq φ' ψ'
  | .modal o φ, .modal o' ψ => o == o' && beq φ ψ
  | _, _ => false

def beqList : List Formula → List Formula → Bool
  | [], [] => true
  | φ :: φs, ψ :: ψs => beq φ ψ && beqList φs ψs
  | _, _ => false
end

/- As for terms, the proofs reduce `beq` by computation instead of through its equation lemmas:
two different constructors compute to `false`. -/
mutual
theorem beq_iff : (φ ψ : Formula) → beq φ ψ = true ↔ φ = ψ
  | .predicate _, ψ => by
    cases ψ <;> first
      | exact beq_iff_eq.trans (by simp)
      | exact ⟨fun h => (nomatch h), fun h => (nomatch h)⟩
  | .negation φ, ψ => by
    cases ψ <;> first
      | exact (beq_iff φ _).trans (by simp)
      | exact ⟨fun h => (nomatch h), fun h => (nomatch h)⟩
  | .conjunction φs, ψ | .disjunction φs, ψ => by
    cases ψ <;> first
      | exact (beqList_iff φs _).trans (by simp)
      | exact ⟨fun h => (nomatch h), fun h => (nomatch h)⟩
  | .implication φ φ', ψ => by
    cases ψ <;> first
      | exact Bool.and_eq_true_iff.trans (by simp [beq_iff φ, beq_iff φ'])
      | exact ⟨fun h => (nomatch h), fun h => (nomatch h)⟩
  | .modal _ φ, ψ => by
    cases ψ <;> first
      | exact Bool.and_eq_true_iff.trans (by simp [beq_iff φ])
      | exact ⟨fun h => (nomatch h), fun h => (nomatch h)⟩

theorem beqList_iff : (φs ψs : List Formula) → beqList φs ψs = true ↔ φs = ψs
  | [], [] => iff_of_true rfl rfl
  | [], _ :: _ | _ :: _, [] => ⟨fun h => (nomatch h), fun h => (nomatch h)⟩
  | φ :: φs, _ :: _ => Bool.and_eq_true_iff.trans (by simp [beq_iff φ, beqList_iff φs])
end

instance : DecidableEq Formula := fun φ ψ => decidable_of_iff _ (beq_iff φ ψ)

/-! ### The combinator operators -/

/-- The operands a conjunction contributes to `&`: its own, or the formula itself. -/
def conjuncts : Formula → List Formula
  | .conjunction φs => φs
  | φ => [φ]

/-- The operands a disjunction contributes to `|`. -/
def disjuncts : Formula → List Formula
  | .disjunction φs => φs
  | φ => [φ]

/-- Modelled from the spec: `φ & ψ`, flattening operands that are conjunctions. -/
def and (φ ψ : Formula) : Formula := .conjunction (φ.conjuncts ++ ψ.conjuncts)

/-- Modelled from the spec: `φ | ψ`, flattening operands that are disjunctions. -/
def or (φ ψ : Formula) : Formula := .disjunction (φ.disjuncts ++ ψ.disjuncts)

/-- Modelled from the spec: `~φ`. -/
def not (φ : Formula) : Formula := .negation φ

@[simp] theorem conjuncts_conjunction (φs : List Formula) : (conjunction φs).conjuncts = φs := rfl

@[simp] theorem disjuncts_disjunction (φs : List Formula) : (disjunction φs).disjuncts = φs := rfl

end Formula

end Knowrob
