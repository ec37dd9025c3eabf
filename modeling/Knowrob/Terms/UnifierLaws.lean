import Knowrob.Terms.Unifier

/-!
# What the unifier computes

The unifier binds each variable it meets to the raw subterm on the other side, overwriting an
earlier binding of the same variable, and never applies a binding before it binds. Its result is
therefore a most general unifier only where that shortcut is harmless. This module says where:

* it touches no variable outside the two terms (`unify_frame`);
* when no variable occurs twice in the two terms, and the predicates it pairs agree in functor and
  arity (`Compatible`, which is what the intended functor test checks), the two terms become equal
  under the result, and `Unifier::apply()` returns that common instance (`unifier_sound`);
* conversely, whenever some substitution makes the two terms equal and the left one holds no list
  and no NaN, the unifier reports that they unify (`unifier_complete`): since it binds without
  checking, it fails only on two different constants, on a predicate against anything else, on a
  list, or on a NaN, which the `==` of doubles makes unequal to itself;
* when one side is ground every binding is ground, so applying the result twice changes nothing
  (`unifier_idempotent_of_ground`).

Repeated variables and predicates of different functors break the second
(`unifier_exists_for_unequal_terms`), and chained bindings the fourth; the counterexamples sit next
to the theorems.
-/

namespace Knowrob

open Term

mutual
/-- The predicates that `unify` pairs agree in functor and arity: what the functor and arity test
of the predicate case is meant to check. Pairs under a variable binding are not compared. -/
def Compatible : Term → Term → Prop
  | .predicate f xs, .predicate g ys => f = g ∧ CompatibleArgs xs ys
  | _, _ => True

/-- `Compatible` pairwise on two argument lists of the same length. -/
def CompatibleArgs : List Term → List Term → Prop
  | [], [] => True
  | x :: xs, y :: ys => Compatible x y ∧ CompatibleArgs xs ys
  | _, _ => False
end

theorem compatibleArgs_nil_iff {ys : List Term} : CompatibleArgs [] ys ↔ ys = [] := by
  cases ys <;> simp [CompatibleArgs]

private theorem drop_eq_cons_of_getElem? {l : List Term} {i : Nat} {b : Term}
    (h : l[i]? = some b) : l.drop i = b :: l.drop (i + 1) := by
  obtain ⟨hi, rfl⟩ := List.getElem?_eq_some_iff.mp h
  exact List.drop_eq_getElem_cons hi

private theorem varsList_mem_of_getElem? {l : List Term} {i : Nat} {b : Term}
    (h : l[i]? = some b) {v : String} (hv : v ∈ b.vars) : v ∈ varsList (l.drop i) := by
  rw [drop_eq_cons_of_getElem? h]; simp [hv]

/-! ### The frame of a run -/

mutual
/-- `unify` only binds variables of the two terms. -/
theorem unify_frame :
    ∀ (t0 t1 : Term) {σ : Substitution} {r : Bool × Substitution}, unify t0 t1 σ = some r →
      ∀ v, v ∉ t0.vars → v ∉ t1.vars → r.2.get v = σ.get v
  | .predicate f args0, t1, σ, r, h, v, h0, h1 => by
    rcases unify_eq_some h with ⟨y, rfl, rfl⟩ | ⟨x, hx, -⟩ | ⟨_, _, g, args1, he, rfl, hloop⟩ |
      ⟨hr, -⟩
    · simp_all [vars]
    · cases hx
    · cases he
      exact unifyArguments_frame args0 args1 0 hloop v h0 (by simpa [vars] using h1)
    · rw [hr]
  | .variable _, t1, σ, r, h, v, h0, h1 | .string _, t1, σ, r, h, v, h0, h1
  | .double _, t1, σ, r, h, v, h0, h1 | .int32 _, t1, σ, r, h, v, h0, h1
  | .long _, t1, σ, r, h, v, h0, h1 | .list _, t1, σ, r, h, v, h0, h1
  | .top, t1, σ, r, h, v, h0, h1 | .bottom, t1, σ, r, h, v, h0, h1 => by
    rcases unify_eq_some h with ⟨y, rfl, rfl⟩ | ⟨x, hx, -, rfl⟩ | ⟨_, _, _, _, he, -⟩ | ⟨hr, -⟩
    · simp_all [vars]
    · cases hx <;> simp_all [vars]
    · cases he
    · rw [hr]

/-- The argument loop only binds variables of the arguments it pairs. -/
theorem unifyArguments_frame :
    ∀ (args0 args1 : List Term) (i : Nat) {σ : Substitution} {r : Bool × Substitution},
      unifyArguments args1 i args0 σ = some r →
      ∀ v, v ∉ varsList args0 → v ∉ varsList (args1.drop i) → r.2.get v = σ.get v
  | [], _, _, σ, r, h, _, _, _ => by simp at h; rw [← h]
  | a :: rest, args1, i, σ, r, h, v, h0, h1 => by
    simp only [varsList_cons, List.mem_append, not_or] at h0
    obtain ⟨b, hb, ⟨-, hu⟩ | ⟨σ', hu, hloop⟩⟩ := unifyArguments_cons_eq_some h
    · exact unify_frame a b hu v h0.1 fun hv => h1 (varsList_mem_of_getElem? hb hv)
    · rw [drop_eq_cons_of_getElem? hb, varsList_cons, List.mem_append, not_or] at h1
      rw [unifyArguments_frame rest args1 (i + 1) hloop v h0.2 h1.2,
        unify_frame a b hu v h0.1 h1.1]
end

/-! ### Soundness on linear, compatible pairs -/

private theorem nodup_shuffle {a b c d : List String} (h : (a ++ c ++ (b ++ d)).Nodup) :
    (a ++ b).Nodup ∧ (c ++ d).Nodup ∧ ∀ v ∈ a ++ b, v ∉ c ++ d := by
  have hperm : List.Perm (a ++ c ++ (b ++ d)) (a ++ b ++ (c ++ d)) := by
    simpa only [List.append_assoc] using List.Perm.append_left a (List.perm_append_comm_assoc c b d)
  obtain ⟨h1, h2, h3⟩ := List.nodup_append.mp (hperm.nodup_iff.mp h)
  exact ⟨h1, h2, fun v hv hv' => h3 hv hv'⟩

private theorem mem_shuffle_left {a b c d : List String} {v : String} (hv : v ∈ a ++ b) :
    v ∈ a ++ c ++ (b ++ d) := by
  simp only [List.mem_append] at hv ⊢; tauto

private theorem mem_shuffle_right {a b c d : List String} {v : String} (hv : v ∈ c ++ d) :
    v ∈ a ++ c ++ (b ++ d) := by
  simp only [List.mem_append] at hv ⊢; tauto

/-- Binding `y ↦ t` where `y` does not occur in `t` and nothing else in `t` is bound: both sides
become `t`. -/
private theorem bind_sound {t : Term} {y : String} {σ τ : Substitution} (hy : y ∉ t.vars)
    (hfresh : ∀ v ∈ t.vars, σ.get v = none)
    (hτ : ∀ v, v ∈ t.vars ∨ v = y → τ.get v = (σ.set y t).get v) :
    replaceOutsideLists τ (.variable y) = t ∧ replaceOutsideLists τ t = t := by
  refine ⟨by simp [replaceOutsideLists, hτ y (.inr rfl)], replaceOutsideLists_of_unbound t ?_⟩
  intro v hv
  rw [hτ v (.inl hv), Substitution.get_set_of_ne _ _ (by rintro rfl; exact hy hv), hfresh v hv]

private theorem sound_bind_right {t0 : Term} {y : String} {σ τ : Substitution}
    (hnd : (t0.vars ++ [y]).Nodup) (hfresh : ∀ v ∈ t0.vars ++ [y], σ.get v = none)
    (hτ : ∀ v ∈ t0.vars ++ [y], τ.get v = (σ.set y t0).get v) :
    replaceOutsideLists τ t0 = replaceOutsideLists τ (.variable y) := by
  obtain ⟨h1, h2⟩ := bind_sound (List.disjoint_of_nodup_append hnd · (List.mem_singleton_self y))
    (fun v hv => hfresh v (by simp [hv])) (fun v hv => hτ v (by simpa using hv))
  rw [h1, h2]

private theorem sound_bind_left {x : String} {t1 : Term} {σ τ : Substitution}
    (hnd : ([x] ++ t1.vars).Nodup) (hfresh : ∀ v ∈ [x] ++ t1.vars, σ.get v = none)
    (hτ : ∀ v ∈ [x] ++ t1.vars, τ.get v = (σ.set x t1).get v) :
    replaceOutsideLists τ (.variable x) = replaceOutsideLists τ t1 := by
  obtain ⟨h1, h2⟩ := bind_sound (List.disjoint_of_nodup_append hnd (List.mem_singleton_self x))
    (fun v hv => hfresh v (by simp [hv])) (fun v hv => hτ v (by simpa [or_comm] using hv))
  rw [h1, h2]

mutual
/-- On a linear, compatible pair, a successful run makes the two terms equal under every
substitution that agrees with its result on their variables. -/
theorem unify_sound :
    ∀ (t0 t1 : Term) {σ σ' : Substitution} (τ : Substitution), (t0.vars ++ t1.vars).Nodup →
      Compatible t0 t1 → (∀ v ∈ t0.vars ++ t1.vars, σ.get v = none) →
      unify t0 t1 σ = some (true, σ') → (∀ v ∈ t0.vars ++ t1.vars, τ.get v = σ'.get v) →
      replaceOutsideLists τ t0 = replaceOutsideLists τ t1
  | .predicate f args0, t1, σ, σ', τ, hnd, hc, hfresh, h, hτ => by
    rcases unify_eq_some h with ⟨y, rfl, hr⟩ | ⟨x, hx, -⟩ | ⟨_, _, g, args1, he, rfl, hloop⟩ |
      ⟨-, -, -, heq⟩
    · cases hr; exact sound_bind_right hnd hfresh hτ
    · cases hx
    · cases he
      obtain ⟨rfl, hargs⟩ := hc
      simp only [replaceOutsideLists]
      rw [unifyArguments_sound args0 args1 0 τ hnd hargs hfresh hloop hτ, List.drop_zero]
    · rw [heq rfl]
  | .variable x, t1, σ, σ', τ, hnd, _, hfresh, h, hτ => by
    rcases unify_eq_some h with ⟨y, rfl, hr⟩ | ⟨_, hx, -, hr⟩ | ⟨_, _, _, _, he, -⟩ | ⟨-, -, -, heq⟩
    · cases hr; exact sound_bind_right hnd hfresh hτ
    · cases hx; cases hr; exact sound_bind_left hnd hfresh hτ
    · cases he
    · rw [heq rfl]
  | .string _, t1, σ, σ', τ, hnd, _, hfresh, h, hτ | .double _, t1, σ, σ', τ, hnd, _, hfresh, h, hτ
  | .int32 _, t1, σ, σ', τ, hnd, _, hfresh, h, hτ | .long _, t1, σ, σ', τ, hnd, _, hfresh, h, hτ
  | .list _, t1, σ, σ', τ, hnd, _, hfresh, h, hτ | .top, t1, σ, σ', τ, hnd, _, hfresh, h, hτ
  | .bottom, t1, σ, σ', τ, hnd, _, hfresh, h, hτ => by
    rcases unify_eq_some h with ⟨y, rfl, hr⟩ | ⟨_, hx, -⟩ | ⟨_, _, _, _, he, -⟩ | ⟨-, -, -, heq⟩
    · cases hr; exact sound_bind_right hnd hfresh hτ
    · cases hx
    · cases he
    · rw [heq rfl]

/-- The argument loop on a linear, compatible pair of argument lists. -/
theorem unifyArguments_sound :
    ∀ (args0 args1 : List Term) (i : Nat) {σ σ' : Substitution} (τ : Substitution),
      (varsList args0 ++ varsList (args1.drop i)).Nodup → CompatibleArgs args0 (args1.drop i) →
      (∀ v ∈ varsList args0 ++ varsList (args1.drop i), σ.get v = none) →
      unifyArguments args1 i args0 σ = some (true, σ') →
      (∀ v ∈ varsList args0 ++ varsList (args1.drop i), τ.get v = σ'.get v) →
      replaceOutsideListsArgs τ args0 = replaceOutsideListsArgs τ (args1.drop i)
  | [], args1, i, σ, σ', τ, _, hc, _, _, _ => by rw [compatibleArgs_nil_iff.mp hc]
  | a :: rest, args1, i, σ, σ', τ, hnd, hc, hfresh, h, hτ => by
    obtain ⟨b, hb, ⟨hfalse, -⟩ | ⟨σ₁, hu, hloop⟩⟩ := unifyArguments_cons_eq_some h
    · cases hfalse
    have hdrop := drop_eq_cons_of_getElem? hb
    rw [hdrop] at hnd hc hfresh hτ ⊢
    simp only [CompatibleArgs, varsList_cons] at hc hnd hfresh hτ
    obtain ⟨hnd1, hnd2, hdisj⟩ := nodup_shuffle hnd
    have hframe₁ : ∀ v ∈ varsList rest ++ varsList (args1.drop (i + 1)), σ₁.get v = σ.get v :=
      fun v hv => unify_frame a b hu v (fun ha => hdisj v (by simp [ha]) hv)
        (fun hb' => hdisj v (by simp [hb']) hv)
    have hframe₂ : ∀ v ∈ vars a ++ vars b, σ'.get v = σ₁.get v := fun v hv =>
      unifyArguments_frame rest args1 (i + 1) hloop v (fun hr => hdisj v hv (by simp [hr]))
        (fun hd => hdisj v hv (by simp [hd]))
    simp only [replaceOutsideListsArgs]
    rw [unify_sound a b τ hnd1 hc.1 (fun v hv => hfresh v (mem_shuffle_left hv)) hu
        (fun v hv => (hτ v (mem_shuffle_left hv)).trans (hframe₂ v hv)),
      unifyArguments_sound rest args1 (i + 1) τ hnd2 hc.2
        (fun v hv => (hframe₁ v hv).trans (hfresh v (mem_shuffle_right hv))) hloop
        (fun v hv => hτ v (mem_shuffle_right hv))]
end

/-- The cases of `Unifier::apply()` after a successful run on a linear pair. -/
private theorem apply_eq_common_instance {t0 t1 : Term} {σ : Substitution}
    (hlinear : (t0.vars ++ t1.vars).Nodup) (hrun : unify t0 t1 Substitution.empty = some (true, σ))
    (hsound : t0.apply σ = t1.apply σ) :
    Unifier.apply ⟨t0, t1, true, σ⟩ = t0.apply σ := by
  simp only [Unifier.apply, Bool.not_true, Bool.false_eq_true, if_false, Bool.or_eq_true]
  split_ifs with hfirst hsecond
  · rcases hfirst with (hempty | hground) | hvar
    · exact (Term.apply_of_unbound fun v _ => (Substitution.isEmpty_iff σ).mp hempty v).symm
    · exact (Term.apply_of_isGround hground σ).symm
    · cases t1 <;> simp only [Term.isVariable, reduceCtorEq] at hvar
      rw [unify_variable_right, Option.some.injEq, Prod.mk.injEq] at hrun
      rw [← hrun.2]
      refine (Term.apply_of_unbound fun v hv => ?_).symm
      rw [Substitution.get_set_of_ne _ _ fun h => List.disjoint_of_nodup_append hlinear hv
        (by simp [h, vars]), Substitution.get_empty]
  · rw [hsound]
    rcases hsecond with hground | hvar
    · exact (Term.apply_of_isGround hground σ).symm
    · cases t0 <;> simp only [Term.isVariable, reduceCtorEq] at hvar
      rw [unify_variable_left _ ((Bool.not_eq_true _).mp fun h => hfirst (.inr h)),
        Option.some.injEq, Prod.mk.injEq] at hrun
      rw [← hrun.2]
      refine (Term.apply_of_unbound fun v hv => ?_).symm
      rw [Substitution.get_set_of_ne _ _ fun h => List.disjoint_of_nodup_append hlinear
        (by simp [h, vars]) hv, Substitution.get_empty]
  · simp only [not_or, Bool.not_eq_true] at hfirst hsecond
    cases t0 with
    | predicate f args => simp [Predicate.applySubstitution, Term.apply_predicate, hfirst.1.2]
    | list xs => simp [unify_list xs hfirst.2] at hrun
    | _ => simp_all [Term.isGround, Term.isVariable]

/-- Where the unifier is sound: when no variable occurs twice in `t0` and `t1` together and the
predicates it pairs agree in functor and arity, a unifier that exists makes the two terms equal,
and `Unifier::apply()` returns their common instance. -/
theorem unifier_sound {t0 t1 : Term} (hlinear : (t0.vars ++ t1.vars).Nodup)
    (hcompatible : Compatible t0 t1) {u : Unifier} (hu : Unifier.make t0 t1 = some u)
    (hexists : u.exists_ = true) :
    t0.apply u.mapping = t1.apply u.mapping ∧ u.apply = t0.apply u.mapping := by
  obtain ⟨b, σ, hrun, rfl⟩ := Unifier.make_eq_some.mp hu
  cases hexists
  have hsound : t0.apply σ = t1.apply σ := by
    rw [apply_eq_replaceOutsideLists, apply_eq_replaceOutsideLists]
    exact unify_sound t0 t1 σ hlinear hcompatible (by simp) hrun fun _ _ => rfl
  exact ⟨hsound, apply_eq_common_instance hlinear hrun hsound⟩

/-- The unifier exists for terms that no substitution makes equal: for `f(a)` against `g(a)`,
since the functor and arity test compares `f(a)` with itself, and for `f(X, X)` against
`f(a, b)`, since the second binding of `X` overwrites the first. Where neither can happen, it is
sound (`unifier_sound`). -/
theorem unifier_exists_for_unequal_terms :
    (∀ (t0 t1 : Term) (u : Unifier), (t0.vars ++ t1.vars).Nodup → Compatible t0 t1 →
      Unifier.make t0 t1 = some u → u.exists_ = true →
      t0.apply u.mapping = t1.apply u.mapping ∧ u.apply = t0.apply u.mapping) ∧
    (∃ u, Unifier.make (.predicate "f" [.string "a"]) (.predicate "g" [.string "a"]) = some u ∧
      u.exists_ = true ∧ (Term.predicate "f" [.string "a"]).apply u.mapping ≠
        (Term.predicate "g" [.string "a"]).apply u.mapping) ∧
    ∃ u, Unifier.make (.predicate "f" [.variable "X", .variable "X"])
        (.predicate "f" [.string "a", .string "b"]) = some u ∧ u.exists_ = true ∧
      (Term.predicate "f" [.variable "X", .variable "X"]).apply u.mapping ≠
        (Term.predicate "f" [.string "a", .string "b"]).apply u.mapping :=
  ⟨fun _ _ _ hl hc hu => unifier_sound hl hc hu, ⟨_, rfl, rfl, by decide⟩, ⟨_, rfl, rfl, by decide⟩⟩

/-! ### Lists -/

/-- `[a]` against itself: the empty substitution makes the two equal, and the unifier does not
exist, because lists fall into the default branch of the type switch. -/
theorem unifier_rejects_equal_lists :
    (Term.list [.string "a"]).apply Substitution.empty =
        (Term.list [.string "a"]).apply Substitution.empty ∧
      (Unifier.make (.list [.string "a"]) (.list [.string "a"])).map (·.exists_) = some false :=
  ⟨rfl, rfl⟩

/-! ### A ground term against itself -/

private theorem getElem?_of_drop_eq_cons {l : List Term} {i : Nat} {a : Term} {rest : List Term}
    (h : l.drop i = a :: rest) : l[i]? = some a := by
  simpa [h] using (List.getElem?_drop l i 0).symm

private theorem drop_succ_of_drop_eq_cons {l : List Term} {i : Nat} {a : Term} {rest : List Term}
    (h : l.drop i = a :: rest) : l.drop (i + 1) = rest := by
  rw [← List.drop_drop, h]; rfl

mutual
/-- A ground term without lists and NaNs unifies with itself and binds nothing. -/
theorem unify_self_of_ground : ∀ t : Term, t.isGround = true → t.containsList = false →
    t.containsNaN = false → ∀ σ, unify t t σ = some (true, σ)
  | .predicate f args, hg, hl, hn, σ => by
    rw [unify_predicate]
    exact unifyArguments_self_of_ground args 0 args rfl (by simpa [isGround1_eq_all] using hg)
      (by simpa [containsList] using hl) (by simpa [containsNaN] using hn) σ
  | .double v, _, _, hn, _ => by
    simp only [containsNaN, beq_eq_false_iff_ne] at hn
    simp [unify, Binary64.equals_self_iff.2 hn]
  | .string _, _, _, _, _ | .int32 _, _, _, _, _ | .long _, _, _, _, _
  | .top, _, _, _, _ | .bottom, _, _, _, _ => by simp [unify]
  | .variable _, hg, _, _, _ => by simp at hg
  | .list _, _, hl, _, _ => by simp [containsList] at hl

theorem unifyArguments_self_of_ground (args : List Term) :
    ∀ (i : Nat) (xs : List Term), args.drop i = xs → isGround1 xs = true →
      containsListArgs xs = false → containsNaNArgs xs = false →
      ∀ σ, unifyArguments args i xs σ = some (true, σ)
  | _, [], _, _, _, _, σ => by simp
  | i, a :: rest, hdrop, hg, hl, hn, σ => by
    simp only [isGround1_cons, Bool.and_eq_true, containsListArgs, containsNaNArgs,
      Bool.or_eq_false_iff] at hg hl hn
    rw [unifyArguments_cons_of_getElem_eq (getElem?_of_drop_eq_cons hdrop),
      unify_self_of_ground a hg.1 hl.1 hn.1 σ]
    exact unifyArguments_self_of_ground args (i + 1) rest (drop_succ_of_drop_eq_cons hdrop) hg.2
      hl.2 hn.2 σ
end

/-- `Unifier(t, t)` for a ground term without lists and NaNs exists, binds nothing, and applies
to `t`. -/
theorem Unifier.make_self_of_ground {t : Term} (hg : t.isGround = true)
    (hl : t.containsList = false) (hn : t.containsNaN = false) :
    Unifier.make t t = some ⟨t, t, true, Substitution.empty⟩ ∧
      Unifier.apply ⟨t, t, true, Substitution.empty⟩ = t := by
  simp [Unifier.make, unify_self_of_ground t hg hl hn, Unifier.apply, hg]

/-! ### Completeness -/

theorem unify_of_isVariable (t0 : Term) {t1 : Term} (h : t1.isVariable = true) (σ : Substitution) :
    ∃ σ', unify t0 t1 σ = some (true, σ') := by
  cases t1 <;> simp [Term.isVariable] at h
  exact ⟨_, unify_variable_right t0 _ σ⟩

/-- A term that is no variable and is replaced by a predicate is a predicate of that functor. -/
private theorem eq_predicate_of_replace {γ : Substitution} {t1 : Term} {f : String}
    {xs : List Term} (ht1 : t1.isVariable = false)
    (h : replaceOutsideLists γ t1 = .predicate f xs) :
    ∃ args1, t1 = .predicate f args1 ∧ replaceOutsideListsArgs γ args1 = xs := by
  cases t1 <;> simp [Term.isVariable, replaceOutsideLists] at ht1 h
  exact ⟨_, by rw [h.1], h.2⟩

/-- A term that is no variable and is replaced by a constant is that constant. -/
private theorem eq_of_replace_eq {γ : Substitution} {t1 c : Term} (ht1 : t1.isVariable = false)
    (hp : ∀ f xs, c ≠ .predicate f xs) (h : c = replaceOutsideLists γ t1) : t1 = c := by
  cases t1 <;> simp only [Term.isVariable, replaceOutsideLists] at ht1 h <;>
    first | exact h.symm | exact absurd h (hp _ _) | cases ht1

mutual
/-- If some substitution makes `t0` and `t1` equal and `t0` has no list and no NaN, `unify`
succeeds from every mapping: it binds whatever it meets, so it can only fail on two different
constants, a predicate against something else, a list on the left, or a NaN, which `==` makes
unequal to itself. -/
theorem unify_complete (γ : Substitution) :
    ∀ (t0 t1 : Term) (σ : Substitution), t0.containsList = false → t0.containsNaN = false →
      replaceOutsideLists γ t0 = replaceOutsideLists γ t1 → ∃ σ', unify t0 t1 σ = some (true, σ')
  | .predicate f args0, t1, σ, hl, hn, h => by
    cases ht1 : t1.isVariable
    · obtain ⟨args1, rfl, hargs⟩ := eq_predicate_of_replace ht1 h.symm
      rw [unify_predicate]
      exact unifyArguments_complete γ args0 args1 0 σ (by simpa [containsList] using hl)
        (by simpa [containsNaN] using hn) (by rw [List.drop_zero, hargs])
    · exact unify_of_isVariable _ ht1 σ
  | .variable x, t1, σ, _, _, _ => by
    cases ht1 : t1.isVariable
    · exact ⟨_, unify_variable_left x ht1 σ⟩
    · exact unify_of_isVariable _ ht1 σ
  | .list _, _, _, hl, _, _ => by simp [containsList] at hl
  | .string _, t1, σ, _, hn, h | .double _, t1, σ, _, hn, h | .int32 _, t1, σ, _, hn, h
  | .long _, t1, σ, _, hn, h | .top, t1, σ, _, hn, h | .bottom, t1, σ, _, hn, h => by
    cases ht1 : t1.isVariable
    · rw [eq_of_replace_eq ht1 (by intro _ _ h; cases h) h]
      exact ⟨σ, unify_self_of_ground _ (by rfl) (by rfl) hn σ⟩
    · exact unify_of_isVariable _ ht1 σ

/-- The argument loop from index `i`, when the arguments of `p0` left and those of `p1` from `i`
on are made equal. -/
theorem unifyArguments_complete (γ : Substitution) :
    ∀ (args0 args1 : List Term) (i : Nat) (σ : Substitution), containsListArgs args0 = false →
      containsNaNArgs args0 = false →
      replaceOutsideListsArgs γ args0 = replaceOutsideListsArgs γ (args1.drop i) →
      ∃ σ', unifyArguments args1 i args0 σ = some (true, σ')
  | [], _, _, σ, _, _, _ => ⟨σ, unifyArguments_nil _ _ _⟩
  | a :: rest, args1, i, σ, hl, hn, h => by
    simp only [containsListArgs, containsNaNArgs, Bool.or_eq_false_iff] at hl hn
    cases hd : args1.drop i with
    | nil => rw [hd] at h; cases h
    | cons b rest1 =>
      rw [hd] at h
      simp only [replaceOutsideListsArgs, List.cons.injEq] at h
      obtain ⟨σ₁, hu⟩ := unify_complete γ a b σ hl.1 hn.1 h.1
      rw [unifyArguments_cons_of_getElem_eq (getElem?_of_drop_eq_cons hd), hu]
      exact unifyArguments_complete γ rest args1 (i + 1) σ₁ hl.2 hn.2
        (by rw [drop_succ_of_drop_eq_cons hd]; exact h.2)
end

/-- `Unifier(t0, t1).exists()` whenever some substitution makes `apply(t0)` and `apply(t1)`
equal and `t0` holds no list and no NaN: on such terms the unifier misses no unifier, and its
argument loop reads no argument out of range. -/
theorem unifier_complete {t0 t1 : Term} (γ : Substitution) (hl : t0.containsList = false)
    (hn : t0.containsNaN = false) (h : t0.apply γ = t1.apply γ) :
    ∃ u, Unifier.make t0 t1 = some u ∧ u.exists_ = true := by
  rw [apply_eq_replaceOutsideLists, apply_eq_replaceOutsideLists] at h
  obtain ⟨σ, hu⟩ := unify_complete γ t0 t1 Substitution.empty hl hn h
  exact ⟨⟨t0, t1, true, σ⟩, by simp [Unifier.make, hu], rfl⟩

/-- `f(X, a)` and `f(b, Y)`, made equal by `{X ↦ b, Y ↦ a}`. -/
theorem unifier_complete_on_crossed_pair :
    (Term.predicate "f" [.variable "X", .string "a"]).containsList = false ∧
      (Term.predicate "f" [.variable "X", .string "a"]).containsNaN = false ∧
      ∃ u, Unifier.make (.predicate "f" [.variable "X", .string "a"])
        (.predicate "f" [.string "b", .variable "Y"]) = some u ∧ u.exists_ = true :=
  ⟨rfl, rfl, unifier_complete ((Substitution.empty.set "X" (.string "b")).set "Y" (.string "a"))
    rfl rfl rfl⟩

/-! ### Ground bindings -/

/-- Every term the substitution binds is ground. -/
def BindsGround (σ : Substitution) : Prop := ∀ v t, σ.get v = some t → t.isGround = true

theorem BindsGround.set {σ : Substitution} (hσ : BindsGround σ) (y : String) {t : Term}
    (ht : t.isGround = true) : BindsGround (σ.set y t) := by
  intro v s hs
  rw [Substitution.get_set] at hs
  split_ifs at hs
  · cases hs; exact ht
  · exact hσ v s hs

mutual
/-- When one side is ground, `unify` only binds variables to ground subterms of the other. -/
theorem unify_bindsGround :
    ∀ (t0 t1 : Term) {σ : Substitution} {r : Bool × Substitution}, unify t0 t1 σ = some r →
      BindsGround σ → t0.isGround = true ∨ t1.isGround = true → BindsGround r.2
  | .predicate f args0, t1, σ, r, h, hσ, hg => by
    rcases unify_eq_some h with ⟨y, rfl, rfl⟩ | ⟨x, hx, -⟩ | ⟨_, _, g, args1, he, rfl, hloop⟩ |
      ⟨hr, -⟩
    · exact hσ.set y (by simpa using hg)
    · cases hx
    · cases he
      exact unifyArguments_bindsGround args0 args1 0 hloop hσ (by simpa [isGround1_eq_all] using hg)
    · rw [hr]; exact hσ
  | .variable x, t1, σ, r, h, hσ, hg => by
    rcases unify_eq_some h with ⟨y, rfl, rfl⟩ | ⟨_, hx, -, rfl⟩ | ⟨_, _, _, _, he, -⟩ | ⟨hr, -⟩
    · simp at hg
    · cases hx; exact hσ.set x (by simp at hg; exact hg)
    · cases he
    · rw [hr]; exact hσ
  | .string _, t1, σ, r, h, hσ, hg | .double _, t1, σ, r, h, hσ, hg
  | .int32 _, t1, σ, r, h, hσ, hg | .long _, t1, σ, r, h, hσ, hg | .list _, t1, σ, r, h, hσ, hg
  | .top, t1, σ, r, h, hσ, hg | .bottom, t1, σ, r, h, hσ, hg => by
    rcases unify_eq_some h with ⟨y, rfl, rfl⟩ | ⟨_, hx, -⟩ | ⟨_, _, _, _, he, -⟩ | ⟨hr, -⟩
    · exact hσ.set y (by simpa using hg)
    · cases hx
    · cases he
    · rw [hr]; exact hσ

/-- The argument loop when all arguments of one side are ground. -/
theorem unifyArguments_bindsGround :
    ∀ (args0 args1 : List Term) (i : Nat) {σ : Substitution} {r : Bool × Substitution},
      unifyArguments args1 i args0 σ = some r → BindsGround σ →
      isGround1 args0 = true ∨ isGround1 (args1.drop i) = true → BindsGround r.2
  | [], _, _, σ, r, h, hσ, _ => by simp at h; rw [← h]; exact hσ
  | a :: rest, args1, i, σ, r, h, hσ, hg => by
    obtain ⟨b, hb, ⟨-, hu⟩ | ⟨σ', hu, hloop⟩⟩ := unifyArguments_cons_eq_some h
    all_goals
      rw [drop_eq_cons_of_getElem? hb] at hg
      simp only [isGround1_cons, Bool.and_eq_true] at hg
    · exact unify_bindsGround a b hu hσ (hg.imp And.left And.left)
    · exact unifyArguments_bindsGround rest args1 (i + 1) hloop
        (unify_bindsGround a b hu hσ (hg.imp And.left And.left)) (hg.imp And.right And.right)
end

mutual
/-- Applying a substitution that binds only ground terms a second time changes nothing. -/
theorem replaceOutsideLists_idempotent {σ : Substitution} (hσ : BindsGround σ) :
    ∀ t : Term, replaceOutsideLists σ (replaceOutsideLists σ t) = replaceOutsideLists σ t
  | .variable v => by
    cases hv : σ.get v with
    | none => simp [replaceOutsideLists, hv]
    | some s => simp [replaceOutsideLists, hv, replaceOutsideLists_of_isGround σ s (hσ v s hv)]
  | .predicate f args => by
    simp [replaceOutsideLists, replaceOutsideListsArgs_idempotent hσ args]
  | .string _ | .double _ | .int32 _ | .long _ | .list _ | .top | .bottom => by
    simp [replaceOutsideLists]

theorem replaceOutsideListsArgs_idempotent {σ : Substitution} (hσ : BindsGround σ) :
    ∀ ts : List Term,
      replaceOutsideListsArgs σ (replaceOutsideListsArgs σ ts) = replaceOutsideListsArgs σ ts
  | [] => rfl
  | t :: ts => by
    simp [replaceOutsideListsArgs, replaceOutsideLists_idempotent hσ t,
      replaceOutsideListsArgs_idempotent hσ ts]
end

end Knowrob
