import Mathlib.Data.String.Basic
import Mathlib.Data.List.Sort
import Knowrob.Terms.Binary64

/-!
# Terms

The term hierarchy of `terms.cpp`, flattened into one inductive type. A term is a variable, one of
the four constant kinds the unifier distinguishes (`StringTerm`, `DoubleTerm`, `Integer32Term`,
`LongTerm`), a predicate, a list, or one of the two singletons `Top` and `Bottom`.

A predicate is a functor applied to its arguments. Its indicator is built by the constructors in
`terms.cpp` from the functor and `arguments.size()` (or, in `loadSettings`, from an indicator whose
arity matches the two arguments it is given), so the arity is not stored: it is the length of the
argument list, and a predicate whose indicator disagrees with its arguments cannot be written down.

A double is a `Binary64`: the parser rounds every number it reads to one, and the unifier compares
two of them with the `==` of doubles. Machine integers keep their width.
-/

namespace Knowrob

/-- A logical term. `Term::type()` is the constructor. -/
inductive Term where
  | variable (name : String)
  | string (value : String)
  | double (value : Binary64)
  | int32 (value : BitVec 32)
  | long (value : BitVec 64)
  | predicate (functor : String) (arguments : List Term)
  | list (elements : List Term)
  | top
  | bottom
  deriving Repr, Inhabited

namespace Term

mutual
/-- Structural equality of terms, as a function the kernel can run. -/
def beq : Term → Term → Bool
  | .variable x, .variable y => x == y
  | .string x, .string y => x == y
  | .double x, .double y => x == y
  | .int32 x, .int32 y => x == y
  | .long x, .long y => x == y
  | .predicate f xs, .predicate g ys => f == g && beqList xs ys
  | .list xs, .list ys => beqList xs ys
  | .top, .top => true
  | .bottom, .bottom => true
  | _, _ => false

def beqList : List Term → List Term → Bool
  | [], [] => true
  | x :: xs, y :: ys => beq x y && beqList xs ys
  | _, _ => false
end

/- The proofs reduce `beq` by computation: its equation lemmas split the 81 pairs of constructors,
and generating them costs more than the proofs. Two different constructors compute to `false`. -/
mutual
theorem beq_iff : (a b : Term) → beq a b = true ↔ a = b
  | .variable _, b | .string _, b | .double _, b | .int32 _, b | .long _, b => by
    cases b <;> first
      | exact beq_iff_eq.trans (by simp)
      | exact ⟨fun h => (nomatch h), fun h => (nomatch h)⟩
  | .top, b | .bottom, b => by
    cases b <;> first
      | exact iff_of_true rfl rfl
      | exact ⟨fun h => (nomatch h), fun h => (nomatch h)⟩
  | .predicate _ xs, b => by
    cases b <;> first
      | exact Bool.and_eq_true_iff.trans (by simp [beqList_iff xs])
      | exact ⟨fun h => (nomatch h), fun h => (nomatch h)⟩
  | .list xs, b => by
    cases b <;> first
      | exact (beqList_iff xs _).trans (by simp)
      | exact ⟨fun h => (nomatch h), fun h => (nomatch h)⟩

theorem beqList_iff : (a b : List Term) → beqList a b = true ↔ a = b
  | [], [] => iff_of_true rfl rfl
  | [], _ :: _ | _ :: _, [] => ⟨fun h => (nomatch h), fun h => (nomatch h)⟩
  | x :: xs, _ :: _ => Bool.and_eq_true_iff.trans (by simp [beq_iff x, beqList_iff xs])
end

instance : DecidableEq Term := fun a b => decidable_of_iff _ (beq_iff a b)

mutual
/-- Modelled from the spec: `Term::isGround`, whose overrides outside `terms.cpp` are not in the
source. Variables are not ground, constants and the two singletons are, a list is ground when its
elements are, and a predicate answers with the flag its constructor stored from `isGround1`. -/
def isGround : Term → Bool
  | .variable _ => false
  | .predicate _ args => isGround1 args
  | .list elements => isGround1 elements
  | _ => true

/-- `Predicate::isGround1`: the arguments are ground when each of them reports being ground. -/
def isGround1 : List Term → Bool
  | [] => true
  | x :: xs => isGround x && isGround1 xs
end

@[simp] theorem isGround1_nil : isGround1 [] = true := rfl

@[simp] theorem isGround1_cons (x : Term) (xs : List Term) :
    isGround1 (x :: xs) = (isGround x && isGround1 xs) := rfl

theorem isGround1_eq_all (xs : List Term) : isGround1 xs = xs.all isGround := by
  induction xs with
  | nil => rfl
  | cons x xs ih => simp [ih]

/-- `t->type() == TermType::VARIABLE`. -/
def isVariable : Term → Bool
  | .variable _ => true
  | _ => false

@[simp] theorem isGround_variable (v : String) : isGround (.variable v) = false := rfl

@[simp] theorem isGround_predicate (f : String) (args : List Term) :
    isGround (.predicate f args) = args.all isGround := isGround1_eq_all args

mutual
/-- The variables of a term, one entry per occurrence, through predicate arguments and list
elements. -/
def vars : Term → List String
  | .variable v => [v]
  | .predicate _ args => varsList args
  | .list elements => varsList elements
  | _ => []

def varsList : List Term → List String
  | [] => []
  | t :: ts => vars t ++ varsList ts
end

@[simp] theorem varsList_nil : varsList [] = [] := rfl

@[simp] theorem varsList_cons (t : Term) (ts : List Term) :
    varsList (t :: ts) = vars t ++ varsList ts := rfl

mutual
/-- Whether a list term occurs anywhere in the term. -/
def containsList : Term → Bool
  | .list _ => true
  | .predicate _ args => containsListArgs args
  | _ => false

def containsListArgs : List Term → Bool
  | [] => false
  | t :: ts => containsList t || containsListArgs ts
end

mutual
/-- Whether a NaN double occurs anywhere in the term. -/
def containsNaN : Term → Bool
  | .double v => v == .nan
  | .predicate _ args => containsNaNArgs args
  | .list elements => containsNaNArgs elements
  | _ => false

def containsNaNArgs : List Term → Bool
  | [] => false
  | t :: ts => containsNaN t || containsNaNArgs ts
end

mutual
/-- A term is ground exactly when no variable occurs in it. -/
theorem isGround_iff_vars_eq_nil : ∀ t : Term, t.isGround = true ↔ t.vars = []
  | .variable _ => by simp [vars]
  | .predicate _ args | .list args => by
    simp only [isGround, vars]; exact isGround1_iff_varsList_eq_nil args
  | .string _ | .double _ | .int32 _ | .long _ | .top | .bottom => by simp [isGround, vars]

theorem isGround1_iff_varsList_eq_nil : ∀ ts : List Term, isGround1 ts = true ↔ varsList ts = []
  | [] => by simp
  | t :: ts => by
    simp [isGround_iff_vars_eq_nil t, isGround1_iff_varsList_eq_nil ts]
end

end Term

end Knowrob
