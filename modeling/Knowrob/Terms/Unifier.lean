import Knowrob.Terms.ApplySubstitution

/-!
# The unifier

`Unifier` of `terms.cpp` is a substitution that its constructor fills by `unify(t0, t1)`. The
recursion binds a variable on the right to the left term, otherwise switches on the left term:
a variable is bound to the right term, two predicates are unified argument by argument, constants
compare kind and value, and `Top` and `Bottom` compare identity. Bindings go through `set`, which
overwrites, and nothing is applied to a term before it is bound.

Two things in the predicate case are modelled as written. The functor and arity test compares
`p0` with itself, so it never fails. The argument loop then runs over `p0`'s arguments and reads
`p1->arguments()[i]`; the model reads with `[i]?`, and a read past the end of `p1`'s arguments ends
the run with `none`.

Lists have no case in the switch and fall into the default branch, which logs a warning and fails.
-/

namespace Knowrob

mutual
/-- `Unifier::unify(t0, t1)` on the unifier's own mapping `σ`: whether the terms unify, and the
mapping the calls to `set` leave. `none` when the argument loop reads past the end of `p1`'s
arguments. -/
def unify (t0 t1 : Term) (σ : Substitution) : Option (Bool × Substitution) :=
  match t1 with
  | .variable y => some (true, σ.set y t0)
  | _ =>
    match t0 with
    | .variable x => some (true, σ.set x t1)
    | .predicate f args0 =>
      match t1 with
      | .predicate _ args1 =>
        if f ≠ f ∨ args0.length ≠ args0.length then some (false, σ)
        else unifyArguments args1 0 args0 σ
      | _ => some (false, σ)
    | .string v => some ((match t1 with | .string w => v == w | _ => false), σ)
    | .double v => some ((match t1 with | .double w => v.equals w | _ => false), σ)
    | .int32 v => some ((match t1 with | .int32 w => v == w | _ => false), σ)
    | .long v => some ((match t1 with | .long w => v == w | _ => false), σ)
    | .top => some ((match t1 with | .top => true | _ => false), σ)
    | .bottom => some ((match t1 with | .bottom => true | _ => false), σ)
    | .list _ => some (false, σ)

/-- The loop `for(i=0; i<p0->indicator().arity(); ++i)` of the predicate case, from index `i` on:
`args0` are the arguments of `p0` not yet visited, `args1` all arguments of `p1`. -/
def unifyArguments (args1 : List Term) (i : Nat) :
    List Term → Substitution → Option (Bool × Substitution)
  | [], σ => some (true, σ)
  | a :: rest, σ =>
    match args1[i]? with
    | none => none
    | some b =>
      match unify a b σ with
      | some (true, σ') => unifyArguments args1 (i + 1) rest σ'
      | other => other
end

/-- A `Unifier` after construction: the two terms, whether they unify (`exists_`), and the
mapping the construction left. -/
structure Unifier where
  t0 : Term
  t1 : Term
  exists_ : Bool
  mapping : Substitution

namespace Unifier

/-- `Unifier(t0, t1)`: run `unify` on an empty mapping. `none` when that run reads out of range. -/
def make (t0 t1 : Term) : Option Unifier :=
  (unify t0 t1 Substitution.empty).map fun r => ⟨t0, t1, r.1, r.2⟩

/-- `Unifier::apply()`: the unified term, picked from the more ground side where possible. -/
def apply (u : Unifier) : Term :=
  if !u.exists_ then .bottom
  else if u.mapping.isEmpty || u.t0.isGround || u.t1.isVariable then u.t0
  else if u.t1.isGround || u.t0.isVariable then u.t1
  else
    match u.t0 with
    | .predicate f args => Predicate.applySubstitution f args u.mapping
    | _ => .bottom

theorem make_eq_some {t0 t1 : Term} {u : Unifier} :
    make t0 t1 = some u ↔ ∃ b σ, unify t0 t1 Substitution.empty = some (b, σ) ∧ u = ⟨t0, t1, b, σ⟩ := by
  simp only [make, Option.map_eq_some']
  constructor
  · rintro ⟨⟨b, σ⟩, h, rfl⟩; exact ⟨b, σ, h, rfl⟩
  · rintro ⟨b, σ, h, rfl⟩; exact ⟨(b, σ), h, rfl⟩

end Unifier

instance : DecidableEq Substitution := fun a b =>
  decidable_of_iff (a.mapping = b.mapping) (by cases a; cases b; simp)

/-! ### One lemma per case of `unify` -/

@[simp] theorem unify_variable_right (t0 : Term) (y : String) (σ : Substitution) :
    unify t0 (.variable y) σ = some (true, σ.set y t0) := by
  cases t0 <;> simp [unify]

theorem unify_variable_left (x : String) {t1 : Term} (h : t1.isVariable = false) (σ : Substitution) :
    unify (.variable x) t1 σ = some (true, σ.set x t1) := by
  cases t1 <;> simp_all [unify, Term.isVariable]

theorem unify_predicate (f g : String) (args0 args1 : List Term) (σ : Substitution) :
    unify (.predicate f args0) (.predicate g args1) σ = unifyArguments args1 0 args0 σ := by
  simp [unify]

/-- Everything one call of `unify` can do: bind the right variable, bind the left variable, run
the argument loop, or answer without touching the mapping, `true` only for equal terms. -/
theorem unify_eq_some {t0 t1 : Term} {σ : Substitution} {r : Bool × Substitution}
    (h : unify t0 t1 σ = some r) :
    (∃ y, t1 = .variable y ∧ r = (true, σ.set y t0)) ∨
    (∃ x, t0 = .variable x ∧ t1.isVariable = false ∧ r = (true, σ.set x t1)) ∨
    (∃ f args0 g args1, t0 = .predicate f args0 ∧ t1 = .predicate g args1 ∧
      unifyArguments args1 0 args0 σ = some r) ∨
    (r.2 = σ ∧ t0.isVariable = false ∧ t1.isVariable = false ∧ (r.1 = true → t0 = t1)) := by
  cases t1 <;> cases t0 <;> simp [unify, Term.isVariable] at h ⊢ <;>
    first
      | exact .inl ⟨_, _, ⟨rfl, rfl⟩, _, _, ⟨rfl, rfl⟩, h⟩
      | (subst h; simp; done)
      | (subst h; simp; exact fun h => (Binary64.equals_iff.1 h).1)

theorem unify_list (xs : List Term) {t1 : Term} (h : t1.isVariable = false) (σ : Substitution) :
    unify (.list xs) t1 σ = some (false, σ) := by
  cases t1 <;> simp_all [unify, Term.isVariable]

@[simp] theorem unifyArguments_nil (args1 : List Term) (i : Nat) (σ : Substitution) :
    unifyArguments args1 i [] σ = some (true, σ) := by
  simp [unifyArguments]

theorem unifyArguments_cons_of_getElem_eq {args1 : List Term} {i : Nat} {b : Term}
    (hb : args1[i]? = some b) (a : Term) (rest : List Term) (σ : Substitution) :
    unifyArguments args1 i (a :: rest) σ =
      match unify a b σ with
      | some (true, σ') => unifyArguments args1 (i + 1) rest σ'
      | other => other := by
  simp [unifyArguments, hb]

/-- The run of the argument loop, one step: a successful step reads an argument of `p1`. -/
theorem unifyArguments_cons_eq_some {args1 : List Term} {i : Nat} {a : Term} {rest : List Term}
    {σ : Substitution} {r : Bool × Substitution}
    (h : unifyArguments args1 i (a :: rest) σ = some r) :
    ∃ b, args1[i]? = some b ∧
      ((r.1 = false ∧ unify a b σ = some r) ∨
        ∃ σ', unify a b σ = some (true, σ') ∧ unifyArguments args1 (i + 1) rest σ' = some r) := by
  simp only [unifyArguments] at h
  split at h
  · cases h
  · rename_i b hb
    refine ⟨b, hb, ?_⟩
    rcases hu : unify a b σ with _ | ⟨_ | _, σ'⟩ <;> simp only [hu] at h
    · cases h
    · exact .inl ⟨by rw [← Option.some.inj h], h ▸ rfl⟩
    · exact .inr ⟨σ', rfl, h⟩

/-! ### Reads past the arguments of the right predicate -/

/-- `f(X, Y)` against `g(a)`: the functor test passes, and the loop reads the second argument of
`g(a)`. -/
theorem unify_reads_past_arguments :
    unify (.predicate "f" [.variable "X", .variable "Y"]) (.predicate "g" [.string "a"])
      Substitution.empty = none := by
  decide

end Knowrob
