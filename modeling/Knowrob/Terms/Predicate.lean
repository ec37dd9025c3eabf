import Mathlib.Order.RelClasses
import Knowrob.Terms.ApplySubstitution

/-!
# Predicate objects

The `Predicate` class of `terms.cpp` as the objects its constructors build, and the order on
`PredicateIndicator`.

`Term` models a predicate by its functor and arguments and recomputes `isGround` from them. The
C++ object instead stores a flag `isGround_`, which each constructor fills with `isGround1()`, the
flags the direct arguments report; `Predicate::applySubstitution` trusts that flag to skip ground
arguments. `TermObject` keeps the stored flag, and `Built` lists every way the sources build an
object: constants, variables, lists, `Predicate(functor, arguments)` (the parser's compounds and
`key=value` options), `Predicate(indicator, arguments)` (the `':'` keys of `loadSettings`) and the
copy constructor `Predicate(other, sub)`. `built_isGround_iff`: on every built object the stored
flag is exact, so `isGround()` holds exactly when no variable occurs in the term.
`copyPredicate_refines` then says that on every built predicate the copy constructor builds an
object again and is `Predicate.applySubstitution` of the `Term` model: the object layer refines
the `Term` model, its stored flags changing no result.

`PredicateIndicator::operator<` tests `other.functor_ < functor_ || other.arity_ < arity_`.
`indicator_lt_conflates_functor_and_arity`: it is irreflexive and incomparable indicators are equal,
but it is neither asymmetric nor transitive, so it is no strict weak order.
-/

namespace Knowrob

/-! ### Indicators -/

/-- `PredicateIndicator`: a functor and an `unsigned int` arity. -/
structure PredicateIndicator where
  functor : String
  arity : UInt32
  deriving DecidableEq, Repr

namespace PredicateIndicator

/-- `PredicateIndicator::operator<`: `(other.functor_ < functor_) || (other.arity_ < arity_)`. -/
instance : LT PredicateIndicator := ⟨fun a b => b.functor < a.functor ∨ b.arity < a.arity⟩

theorem lt_iff {a b : PredicateIndicator} : a < b ↔ b.functor < a.functor ∨ b.arity < a.arity :=
  Iff.rfl

instance (a b : PredicateIndicator) : Decidable (a < b) := decidable_of_iff _ lt_iff.symm

theorem not_lt_self (a : PredicateIndicator) : ¬a < a := by
  rintro (h | h)
  · exact lt_irrefl a.functor h
  · exact UInt32.lt_irrefl _ h

/-- Two indicators that `operator<` does not order either way have the same functor and arity. -/
theorem eq_of_incomparable {a b : PredicateIndicator} (hab : ¬a < b) (hba : ¬b < a) : a = b := by
  simp only [lt_iff, not_or] at hab hba
  have hf : a.functor = b.functor := le_antisymm (not_lt.1 hab.1) (not_lt.1 hba.1)
  have ha : a.arity = b.arity := UInt32.le_antisymm (UInt32.not_lt.1 hab.2) (UInt32.not_lt.1 hba.2)
  cases a; cases b
  simp_all

end PredicateIndicator

/-- `operator<` is irreflexive, and indicators it leaves unordered are equal; but `f/2 < g/1` by
their arities and `g/1 < f/2` by their functors, so it is neither asymmetric nor transitive, and no
strict weak order. -/
theorem indicator_lt_conflates_functor_and_arity :
    (∀ a : PredicateIndicator, ¬a < a) ∧
    (∀ a b : PredicateIndicator, ¬a < b → ¬b < a → a = b) ∧
    (⟨"f", 2⟩ : PredicateIndicator) < ⟨"g", 1⟩ ∧ (⟨"g", 1⟩ : PredicateIndicator) < ⟨"f", 2⟩ ∧
    ¬IsAsymm PredicateIndicator (· < ·) ∧ ¬IsTrans PredicateIndicator (· < ·) ∧
    ¬IsStrictWeakOrder PredicateIndicator (· < ·) := by
  have hfg : (⟨"f", 2⟩ : PredicateIndicator) < ⟨"g", 1⟩ := .inr (by decide)
  have hgf : (⟨"g", 1⟩ : PredicateIndicator) < ⟨"f", 2⟩ := .inl (String.lt_iff_toList_lt.2 (by decide))
  have htrans : ¬IsTrans PredicateIndicator (· < ·) := fun h =>
    PredicateIndicator.not_lt_self _ (h.trans _ _ _ hfg hgf)
  exact ⟨PredicateIndicator.not_lt_self, fun _ _ => PredicateIndicator.eq_of_incomparable, hfg, hgf,
    fun h => h.asymm _ _ hfg hgf, htrans, fun h => htrans inferInstance⟩

/-! ### Predicate objects -/

/-- A term object as the constructors of `terms.cpp` leave it. A predicate holds the flag
`isGround_` its constructor stored. -/
inductive TermObject where
  | variable (name : String)
  | string (value : String)
  | double (value : Binary64)
  | int32 (value : BitVec 32)
  | long (value : BitVec 64)
  | predicate (functor : String) (arguments : List TermObject) (isGround_ : Bool)
  | list (elements : List TermObject)
  | top
  | bottom

namespace TermObject

mutual
/-- `Term::isGround()`: a predicate answers with its stored flag; a list, whose class is not in
the sources, is modelled as `Term.isGround` models it, from its elements. -/
def isGround : TermObject → Bool
  | .variable _ => false
  | .predicate _ _ g => g
  | .list elements => isGround1 elements
  | _ => true

/-- `Predicate::isGround1()`: every argument reports being ground. -/
def isGround1 : List TermObject → Bool
  | [] => true
  | x :: xs => isGround x && isGround1 xs
end

/-- `Predicate(indicator, arguments)`, and `Predicate(functor, arguments)` which builds the
indicator: the stored flag is `isGround1()` of the arguments. -/
def mkPredicate (functor : String) (arguments : List TermObject) : TermObject :=
  .predicate functor arguments (isGround1 arguments)

mutual
/-- The switch of `Predicate::applySubstitution(in, sub)` on one argument: a bound variable is
replaced, a predicate is kept when its stored flag is set and copied with `sub` otherwise. -/
def applyArgument (sub : String → Option TermObject) : TermObject → TermObject
  | .variable v => (sub v).getD (.variable v)
  | .predicate f args g =>
    if g then .predicate f args g else mkPredicate f (applySubstitution sub args)
  | t => t

/-- `Predicate::applySubstitution(in, sub)`, with `sub` the lookup `Substitution::get`. -/
def applySubstitution (sub : String → Option TermObject) : List TermObject → List TermObject
  | [] => []
  | t :: ts => applyArgument sub t :: applySubstitution sub ts
end

/-- The copy constructor `Predicate(other, sub)`: the indicator of `other`, its arguments with
`sub` applied, and the flag `isGround1()` of those. -/
def copyPredicate (functor : String) (arguments : List TermObject)
    (sub : String → Option TermObject) : TermObject :=
  mkPredicate functor (applySubstitution sub arguments)

/-- The objects the sources can build: leaves, lists of built objects, predicates of built
arguments, and copies of a built predicate under a substitution whose bindings are built. -/
inductive Built : TermObject → Prop
  | variable (name : String) : Built (.variable name)
  | string (value : String) : Built (.string value)
  | double (value : Binary64) : Built (.double value)
  | int32 (value : BitVec 32) : Built (.int32 value)
  | long (value : BitVec 64) : Built (.long value)
  | top : Built .top
  | bottom : Built .bottom
  | list (elements : List TermObject) (h : ∀ x ∈ elements, Built x) : Built (.list elements)
  | predicate (functor : String) (arguments : List TermObject) (h : ∀ x ∈ arguments, Built x) :
      Built (mkPredicate functor arguments)
  | copy (functor : String) (arguments : List TermObject) (g : Bool)
      (hp : Built (.predicate functor arguments g)) (sub : String → Option TermObject)
      (hsub : ∀ v t, sub v = some t → Built t) : Built (copyPredicate functor arguments sub)

/-! ### Exact flags -/

mutual
/-- Every stored flag in the object is `isGround1()` of its predicate's arguments. -/
def FlagsExact : TermObject → Prop
  | .predicate _ args g => g = isGround1 args ∧ FlagsExact1 args
  | .list elements => FlagsExact1 elements
  | _ => True

def FlagsExact1 : List TermObject → Prop
  | [] => True
  | x :: xs => FlagsExact x ∧ FlagsExact1 xs
end

theorem flagsExact1_iff : ∀ xs : List TermObject, FlagsExact1 xs ↔ ∀ x ∈ xs, FlagsExact x
  | [] => by simp [FlagsExact1]
  | x :: xs => by simp [FlagsExact1, flagsExact1_iff xs]

theorem flagsExact_mkPredicate {f : String} {args : List TermObject} (h : FlagsExact1 args) :
    FlagsExact (mkPredicate f args) :=
  ⟨rfl, h⟩

mutual
/-- One argument of an exact object, with a substitution of exact bindings applied, is exact. -/
theorem flagsExact_applyArgument {sub : String → Option TermObject}
    (hsub : ∀ v t, sub v = some t → FlagsExact t) :
    ∀ t : TermObject, FlagsExact t → FlagsExact (applyArgument sub t)
  | .variable v, _ => by
    cases h : sub v with
    | none => simp [applyArgument, h, FlagsExact]
    | some t => simpa [applyArgument, h] using hsub v t h
  | .predicate f args g, ht => by
    cases g
    · exact ⟨rfl, flagsExact_applySubstitution hsub args ht.2⟩
    · exact ht
  | .string _, ht | .double _, ht | .int32 _, ht | .long _, ht | .list _, ht | .top, ht
  | .bottom, ht => ht

theorem flagsExact_applySubstitution {sub : String → Option TermObject}
    (hsub : ∀ v t, sub v = some t → FlagsExact t) :
    ∀ ts : List TermObject, FlagsExact1 ts → FlagsExact1 (applySubstitution sub ts)
  | [], _ => trivial
  | t :: ts, h => ⟨flagsExact_applyArgument hsub t h.1, flagsExact_applySubstitution hsub ts h.2⟩
end

/-- Every constructor leaves exact flags behind. -/
theorem Built.flagsExact {o : TermObject} (h : Built o) : FlagsExact o := by
  induction h with
  | «variable» | string | double | int32 | long | top | bottom => trivial
  | list elements _ ih => exact (flagsExact1_iff elements).2 ih
  | predicate f args _ ih => exact flagsExact_mkPredicate ((flagsExact1_iff args).2 ih)
  | copy f args g _ sub _ ihp ihsub =>
    exact flagsExact_mkPredicate (flagsExact_applySubstitution ihsub args ihp.2)

/-! ### The object layer refines `Term` -/

mutual
/-- The term an object stands for, its stored flags forgotten. -/
def erase : TermObject → Term
  | .variable v => .variable v
  | .string v => .string v
  | .double v => .double v
  | .int32 v => .int32 v
  | .long v => .long v
  | .predicate f args _ => .predicate f (erase1 args)
  | .list elements => .list (erase1 elements)
  | .top => .top
  | .bottom => .bottom

def erase1 : List TermObject → List Term
  | [] => []
  | x :: xs => erase x :: erase1 xs
end

mutual
/-- On exact objects the stored flags answer as `Term.isGround` computes. -/
theorem isGround_erase : ∀ o : TermObject, FlagsExact o → o.isGround = o.erase.isGround
  | .predicate _ args _, h => by
    rw [isGround, h.1, erase, Term.isGround]; exact isGround1_erase args h.2
  | .list elements, h => by
    rw [isGround, erase, Term.isGround]; exact isGround1_erase elements h
  | .variable _, _ | .string _, _ | .double _, _ | .int32 _, _ | .long _, _ | .top, _
  | .bottom, _ => rfl

theorem isGround1_erase : ∀ os : List TermObject, FlagsExact1 os →
    isGround1 os = Term.isGround1 (erase1 os)
  | [], _ => rfl
  | o :: os, h => by
    rw [isGround1, erase1, Term.isGround1, isGround_erase o h.1, isGround1_erase os h.2]
end

/-- Every object the sources build is ground, by its own report, exactly when no variable occurs
in it, through nested predicates and list elements. -/
theorem built_isGround_iff {o : TermObject} (h : Built o) : o.isGround = true ↔ o.erase.vars = [] := by
  rw [isGround_erase o h.flagsExact, Term.isGround_iff_vars_eq_nil]

/-- The copy of `p(X, a)` under `X ↦ Y` is built, and its flag says whether it has variables. -/
theorem copy_isGround_iff_vars :
    Built (copyPredicate "p" [.variable "X", .string "a"]
      fun v => if v = "X" then some (.variable "Y") else none) ∧
    ((copyPredicate "p" [.variable "X", .string "a"]
      fun v => if v = "X" then some (.variable "Y") else none).isGround = true ↔
      (copyPredicate "p" [.variable "X", .string "a"]
        fun v => if v = "X" then some (.variable "Y") else none).erase.vars = []) := by
  have hargs : ∀ x ∈ [TermObject.variable "X", .string "a"], Built x := by
    simp only [List.mem_cons, List.not_mem_nil, or_false]
    rintro x (rfl | rfl)
    exacts [.variable _, .string _]
  have h := Built.copy "p" _ _ (.predicate "p" _ hargs)
    (fun v => if v = "X" then some (.variable "Y") else none)
    fun v t ht => by dsimp only at ht; split at ht <;> cases ht; exact .variable _
  exact ⟨h, built_isGround_iff h⟩

section Refinement

variable {σ : Substitution} {sub : String → Option TermObject}

mutual
/-- The argument switch on objects is `Term.apply` on the terms they stand for. -/
theorem erase_applyArgument (hsub : ∀ v, (sub v).map erase = σ.get v) :
    ∀ t : TermObject, FlagsExact t → (applyArgument sub t).erase = t.erase.apply σ
  | .variable v, _ => by
    rw [applyArgument, erase, Term.apply_variable, ← hsub v]
    cases sub v <;> rfl
  | .predicate f args g, ht => by
    have hg : (Term.predicate f (erase1 args)).isGround = g := by
      rw [Term.isGround, ← isGround1_erase args ht.2, ht.1]
    rw [erase, Term.apply_predicate, hg]
    cases g
    · simp only [applyArgument, Bool.false_eq_true, if_false, mkPredicate, erase]
      rw [erase_applySubstitution hsub args ht.2]
    · rfl
  | .list elements, _ => (Term.apply_list (erase1 elements) σ).symm
  | .string _, _ | .double _, _ | .int32 _, _ | .long _, _ | .top, _ | .bottom, _ => rfl

theorem erase_applySubstitution (hsub : ∀ v, (sub v).map erase = σ.get v) :
    ∀ ts : List TermObject, FlagsExact1 ts →
      erase1 (applySubstitution sub ts) = Knowrob.applySubstitution (erase1 ts) σ
  | [], _ => rfl
  | t :: ts, h => by
    rw [applySubstitution, erase1, erase1, Term.applySubstitution_cons,
      erase_applyArgument hsub t h.1, erase_applySubstitution hsub ts h.2]
end

/-- The copy constructor of an exact predicate is `Predicate.applySubstitution` of the `Term`
model, under a substitution whose lookups stand for those of `σ`. -/
theorem erase_copyPredicate (hsub : ∀ v, (sub v).map erase = σ.get v) {f : String}
    {args : List TermObject} {g : Bool} (hp : FlagsExact (.predicate f args g)) :
    (copyPredicate f args sub).erase = Predicate.applySubstitution f (erase1 args) σ := by
  rw [copyPredicate, mkPredicate, erase, Predicate.applySubstitution,
    erase_applySubstitution hsub args hp.2]

/-- On every predicate object the sources build, the copy constructor, which keeps an argument
whose stored flag says ground and copies the others, builds an object again, and stands for
`Predicate.applySubstitution` of the `Term` model: the stored flags change no result. -/
theorem copyPredicate_refines {f : String} {args : List TermObject} {g : Bool}
    (hp : Built (.predicate f args g)) (hsub : ∀ v t, sub v = some t → Built t)
    (hσ : ∀ v, (sub v).map erase = σ.get v) :
    Built (copyPredicate f args sub) ∧
      (copyPredicate f args sub).erase = Predicate.applySubstitution f (erase1 args) σ :=
  ⟨.copy f args g hp sub hsub, erase_copyPredicate hσ hp.flagsExact⟩

end Refinement

/-- The copy of the built `p(X, q(a))` under `X ↦ Y`, whose ground argument is kept, stands for
`p(Y, q(a))`. -/
theorem copyPredicate_refines_rename :
    Built (copyPredicate "p" [.variable "X", mkPredicate "q" [.string "a"]]
        fun v => if v = "X" then some (.variable "Y") else none) ∧
      (copyPredicate "p" [.variable "X", mkPredicate "q" [.string "a"]]
        fun v => if v = "X" then some (.variable "Y") else none).erase =
      Predicate.applySubstitution "p" [.variable "X", .predicate "q" [.string "a"]]
        (Substitution.empty.set "X" (.variable "Y")) := by
  have hq : Built (mkPredicate "q" [.string "a"]) := .predicate "q" _ fun x hx => by
    simp only [List.mem_singleton] at hx
    exact hx ▸ .string _
  have hargs : ∀ x ∈ [TermObject.variable "X", mkPredicate "q" [.string "a"]], Built x := by
    simp only [List.mem_cons, List.not_mem_nil, or_false]
    rintro x (rfl | rfl)
    exacts [.variable _, hq]
  have hsub : ∀ v t, (if v = "X" then some (TermObject.variable "Y") else none) = some t →
      Built t := fun v t ht => by
    split at ht <;> cases ht
    exact .variable _
  have hσ : ∀ v, (if v = "X" then some (TermObject.variable "Y") else none).map erase =
      (Substitution.empty.set "X" (.variable "Y")).get v := fun v => by
    by_cases hv : v = "X" <;> simp [hv, erase]
  exact copyPredicate_refines (.predicate "p" _ hargs) hsub hσ

end TermObject

end Knowrob
