import Knowrob.Terms.Substitution

/-!
# Applying a substitution

`Predicate::applySubstitution` builds a new predicate with the same indicator whose arguments are
mapped by a switch on their type: a bound variable is replaced by its binding, a predicate argument
is kept when its ground flag is set and rebuilt otherwise, and every other argument is kept. The
switch is `apply(term, sub)` of the specification, so `Term.apply` is both.

Nothing is applied to a binding after it replaces a variable, and the switch has no case for
lists: a variable inside a list argument is left in place. `applySubstitution_replaces_outside_lists`
says this is all the function does; in particular the ground shortcut skips no replacement, which
is where the ground flag has to be exact.
-/

namespace Knowrob

mutual
/-- `apply(term, sub)`: the loop body of `Predicate::applySubstitution(in, sub)`. -/
def Term.apply : Term → Substitution → Term
  | .variable v, σ => (σ.get v).getD (.variable v)
  | .predicate f args, σ =>
    if (Term.predicate f args).isGround then .predicate f args
    else .predicate f (applySubstitution args σ)
  | t, _ => t

/-- `Predicate::applySubstitution(in, sub)`: the arguments of a predicate, mapped one by one. -/
def applySubstitution : List Term → Substitution → List Term
  | [], _ => []
  | t :: ts, σ => t.apply σ :: applySubstitution ts σ
end

/-- `Predicate::applySubstitution(sub)`: the predicate the copy constructor
`Predicate(other, sub)` builds. -/
def Predicate.applySubstitution (functor : String) (arguments : List Term) (σ : Substitution) :
    Term :=
  .predicate functor (Knowrob.applySubstitution arguments σ)

namespace Term

@[simp] theorem apply_variable (v : String) (σ : Substitution) :
    (Term.variable v).apply σ = (σ.get v).getD (.variable v) := by
  simp [Term.apply]

theorem apply_predicate (f : String) (args : List Term) (σ : Substitution) :
    (Term.predicate f args).apply σ =
      if (Term.predicate f args).isGround then .predicate f args
      else .predicate f (applySubstitution args σ) := by
  simp [Term.apply]

@[simp] theorem apply_list (xs : List Term) (σ : Substitution) : (Term.list xs).apply σ = .list xs := by
  simp [Term.apply]

@[simp] theorem applySubstitution_nil (σ : Substitution) : applySubstitution [] σ = [] := by
  simp [applySubstitution]

@[simp] theorem applySubstitution_cons (t : Term) (ts : List Term) (σ : Substitution) :
    applySubstitution (t :: ts) σ = t.apply σ :: applySubstitution ts σ := by
  simp [applySubstitution]

end Term

/-! ### The reference substitution -/

mutual
/-- Replace every variable bound in `σ` by its binding, through nested predicates only: lists are
kept as they are. No binding is itself substituted. -/
def replaceOutsideLists (σ : Substitution) : Term → Term
  | .variable v => (σ.get v).getD (.variable v)
  | .predicate f args => .predicate f (replaceOutsideListsArgs σ args)
  | t => t

def replaceOutsideListsArgs (σ : Substitution) : List Term → List Term
  | [] => []
  | t :: ts => replaceOutsideLists σ t :: replaceOutsideListsArgs σ ts
end

mutual
/-- Replace every variable bound in `σ` by its binding, at any depth, lists included. -/
def replaceVariables (σ : Substitution) : Term → Term
  | .variable v => (σ.get v).getD (.variable v)
  | .predicate f args => .predicate f (replaceVariablesArgs σ args)
  | .list xs => .list (replaceVariablesArgs σ xs)
  | t => t

def replaceVariablesArgs (σ : Substitution) : List Term → List Term
  | [] => []
  | t :: ts => replaceVariables σ t :: replaceVariablesArgs σ ts
end

mutual
/-- A ground term has nothing to replace. -/
theorem replaceOutsideLists_of_isGround (σ : Substitution) :
    ∀ t : Term, t.isGround = true → replaceOutsideLists σ t = t
  | .variable _, h => by simp at h
  | .predicate f args, h => by
    simp only [replaceOutsideLists, Term.predicate.injEq, true_and]
    exact replaceOutsideListsArgs_of_isGround1 σ args h
  | .string _, _ | .double _, _ | .int32 _, _ | .long _, _ | .list _, _ | .top, _ | .bottom, _ => by
    simp [replaceOutsideLists]

theorem replaceOutsideListsArgs_of_isGround1 (σ : Substitution) :
    ∀ ts : List Term, Term.isGround1 ts = true → replaceOutsideListsArgs σ ts = ts
  | [], _ => rfl
  | t :: ts, h => by
    simp only [Term.isGround1_cons, Bool.and_eq_true] at h
    simp [replaceOutsideListsArgs, replaceOutsideLists_of_isGround σ t h.1,
      replaceOutsideListsArgs_of_isGround1 σ ts h.2]
end

mutual
/-- A term none of whose variables is bound has nothing to replace. -/
theorem replaceOutsideLists_of_unbound {σ : Substitution} :
    ∀ t : Term, (∀ v ∈ t.vars, σ.get v = none) → replaceOutsideLists σ t = t
  | .variable v, h => by simp [replaceOutsideLists, h v (by simp [Term.vars])]
  | .predicate f args, h => by
    simp only [replaceOutsideLists, Term.predicate.injEq, true_and]
    exact replaceOutsideListsArgs_of_unbound args h
  | .string _, _ | .double _, _ | .int32 _, _ | .long _, _ | .list _, _ | .top, _ | .bottom, _ => by
    simp [replaceOutsideLists]

theorem replaceOutsideListsArgs_of_unbound {σ : Substitution} :
    ∀ ts : List Term, (∀ v ∈ Term.varsList ts, σ.get v = none) → replaceOutsideListsArgs σ ts = ts
  | [], _ => rfl
  | t :: ts, h => by
    simp only [Term.varsList_cons, List.mem_append] at h
    simp [replaceOutsideListsArgs, replaceOutsideLists_of_unbound t fun v hv => h v (.inl hv),
      replaceOutsideListsArgs_of_unbound ts fun v hv => h v (.inr hv)]
end

mutual
theorem apply_eq_replaceOutsideLists (σ : Substitution) :
    ∀ t : Term, t.apply σ = replaceOutsideLists σ t
  | .variable _ => by simp [replaceOutsideLists]
  | .predicate f args => by
    rw [Term.apply_predicate]
    split_ifs with hg
    · exact (replaceOutsideLists_of_isGround σ _ hg).symm
    · simp [replaceOutsideLists, applySubstitution_eq_replaceOutsideListsArgs σ args]
  | .string _ | .double _ | .int32 _ | .long _ | .list _ | .top | .bottom => by
    simp [Term.apply, replaceOutsideLists]

theorem applySubstitution_eq_replaceOutsideListsArgs (σ : Substitution) :
    ∀ ts : List Term, applySubstitution ts σ = replaceOutsideListsArgs σ ts
  | [] => by simp [replaceOutsideListsArgs]
  | t :: ts => by
    simp [replaceOutsideListsArgs, apply_eq_replaceOutsideLists σ t,
      applySubstitution_eq_replaceOutsideListsArgs σ ts]
end

theorem Term.apply_of_isGround {t : Term} (h : t.isGround = true) (σ : Substitution) :
    t.apply σ = t := by
  rw [apply_eq_replaceOutsideLists, replaceOutsideLists_of_isGround σ t h]

theorem Term.apply_of_unbound {t : Term} {σ : Substitution} (h : ∀ v ∈ t.vars, σ.get v = none) :
    t.apply σ = t := by
  rw [apply_eq_replaceOutsideLists, replaceOutsideLists_of_unbound t h]

/-- `p.applySubstitution(σ)` replaces every bound variable by its binding at any depth of nested
predicate arguments, substitutes nothing into the bindings, and leaves list arguments and all
other subterms unchanged: the ground shortcut never skips a replacement. -/
theorem applySubstitution_replaces_outside_lists (functor : String) (arguments : List Term)
    (σ : Substitution) :
    Predicate.applySubstitution functor arguments σ =
      replaceOutsideLists σ (.predicate functor arguments) := by
  simp [Predicate.applySubstitution, replaceOutsideLists,
    applySubstitution_eq_replaceOutsideListsArgs]

/-- `p(X, [X])` with `X ↦ a` keeps the `X` inside the list. -/
theorem applySubstitution_skips_list_elements :
    Predicate.applySubstitution "p" [.variable "X", .list [.variable "X"]]
        (Substitution.empty.set "X" (.string "a")) ≠
      replaceVariables (Substitution.empty.set "X" (.string "a"))
        (.predicate "p" [.variable "X", .list [.variable "X"]]) := by
  decide

end Knowrob
