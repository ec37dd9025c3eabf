import Knowrob.Terms.UnifierLaws

/-!
# Merging substitutions

`Substitution::unifyWith` (and `Substitution::combine`, its older twin in `terms.cpp`) merges the
bindings of another substitution into this one, in the other map's order. An unbound variable is
inserted; a bound one is unified with the new binding by a fresh `Unifier`, and on success
rebound to `Unifier::apply()`. The first binding that does not unify ends the merge with `false`,
the bindings merged before it left in place.

Each step records how to undo itself: `unifyWith` pushes a closure onto a `Reversible`, `combine`
an `Added` or `Replaced` operation onto a `Diff`. Both are `std::queue`s, and both roll back from
the front. The undo entries are data here (`Undo`), and a journal is the queue's list, front first.
A closure holds a map iterator: the model identifies it with its key, which is sound because no
merge erases an entry, and an undo whose entry is gone stands for a dangling iterator and ends
the rollback with `none`.

A merge returns true exactly when the two substitutions have a common solution only where the
unifier is sound and complete (`unifyWith_succeeds_without_common_solution`): a common solution
makes it return true when the substitution merged into binds terms without lists and NaNs, and a
true result from ground substitutions whose shared variables are bound to compatible terms leaves
exactly the common solutions. Elsewhere it returns true without one: `{X ↦ f(a)}` merged with
`{X ↦ g(a)}`, where the unifier does not compare the functors, and `{X ↦ f(Y), Y ↦ b}` with
`{X ↦ f(a)}`, where the binding `Y ↦ a` the unifier makes is dropped.

Within one merge every key is touched at most once, and so within any run of merges into one
journal in which no variable is bound by two of the merged substitutions. There the queue's order
does not matter, and rolling back gives the substitution the run started from
(`rollBack_restores_disjoint_merges`). Across two merges that touch the same variable it does.
-/

namespace Knowrob

/-- One undo entry: `[this, jt]() { mapping_.erase(jt); }` (`Added::rollBack`) or
`[it, t0]() { it->second = t0; }` (`Replaced::rollBack`). -/
inductive Undo where
  | erase (v : String)
  | restore (v : String) (t : Term)
  deriving Repr, DecidableEq

namespace Undo

/-- Run one undo entry on the substitution it was recorded for. -/
def run : Undo → Substitution → Option Substitution
  | .erase v, σ => if σ.contains v then some (σ.erase v) else none
  | .restore v t, σ => if σ.contains v then some (σ.set v t) else none

end Undo

/-- `Reversible`: a `std::queue` of undo closures, front first. -/
abbrev Reversible := List Undo

/-- `Substitution::Diff`: a `std::queue` of undo operations, front first. -/
abbrev Diff := List Undo

/-- The loop shared by `unifyWith` and `combine` over the other substitution's bindings: the
result, the merged substitution and the journal with this merge's undo entries pushed at the
back. `none` when a unifier read out of range. -/
def mergeBindings : List (String × Term) → Substitution → List Undo →
    Option (Bool × Substitution × List Undo)
  | [], σ, journal => some (true, σ, journal)
  | (v, t1) :: rest, σ, journal =>
    match σ.get v with
    | none => mergeBindings rest (σ.insert v t1) (journal ++ [.erase v])
    | some t0 =>
      match Unifier.make t0 t1 with
      | none => none
      | some sigma =>
        if sigma.exists_ then mergeBindings rest (σ.set v sigma.apply) (journal ++ [.restore v t0])
        else some (false, σ, journal)

namespace Substitution

/-- `Substitution::unifyWith(other, reversible)`: nothing is recorded when `reversible` is null. -/
def unifyWith (σ other : Substitution) (reversible : Option Reversible) :
    Option (Bool × Substitution × Option Reversible) :=
  (mergeBindings other.mapping σ (reversible.getD [])).map fun r =>
    (r.1, r.2.1, reversible.map fun _ => r.2.2)

/-- `Substitution::combine(other, changes)` of `terms.cpp`. -/
def combine (σ other : Substitution) (changes : Diff) : Option (Bool × Substitution × Diff) :=
  mergeBindings other.mapping σ changes

/-- Replay a journal front first, as `Reversible::rollBack` and `Substitution::rollBack` do; both
leave the journal empty. -/
def replay : List Undo → Substitution → Option Substitution
  | [], σ => some σ
  | u :: rest, σ => (u.run σ).bind (replay rest)

/-- `Reversible::rollBack()`. -/
def rollBackReversible (σ : Substitution) (reversible : Reversible) : Option Substitution :=
  replay reversible σ

def rollBack (σ : Substitution) (changes : Diff) : Option Substitution :=
  replay changes σ

end Substitution

/-! ### Common solutions -/

/-- `γ` solves `σ`: `γ` is a ground substitution and `γ(v) ≡ apply(t, γ)` for every binding
`v ↦ t` of `σ`. -/
def IsSolution (γ σ : Substitution) : Prop :=
  BindsGround γ ∧ ∀ v t, σ.get v = some t → γ.get v = some (t.apply γ)

/-- In entries sorted by key, a variable bound by the tail is not the head's, and the whole list
binds it alike. -/
theorem lookupEntry_cons_of_tail {v w : String} {t1 t : Term} {rest : List (String × Term)}
    (hrest : lookupEntry v rest = none) (h : lookupEntry w rest = some t) :
    w ≠ v ∧ lookupEntry w ((v, t1) :: rest) = some t := by
  have hw : w ≠ v := by rintro rfl; simp [hrest] at h
  exact ⟨hw, by simp [lookupEntry, hw, h]⟩

/-- The merge loop succeeds when each variable it finds bound already is bound to a term without
lists and NaNs that `γ` makes equal to the new binding: the unifier then exists
(`unifier_complete`), and no step touches a variable a later step reads. -/
theorem mergeBindings_true_of_solution (γ : Substitution) :
    ∀ (entries : List (String × Term)) (σ : Substitution) (journal : List Undo),
      (keys entries).Sorted (· < ·) →
      (∀ v t1 t0, lookupEntry v entries = some t1 → σ.get v = some t0 →
        t0.containsList = false ∧ t0.containsNaN = false ∧ t0.apply γ = t1.apply γ) →
      ∃ σ' journal', mergeBindings entries σ journal = some (true, σ', journal')
  | [], σ, journal, _, _ => ⟨σ, journal, rfl⟩
  | (v, t1) :: rest, σ, journal, hsorted, hbound => by
    simp only [keys, List.map_cons, List.sorted_cons] at hsorted
    have hrest : lookupEntry v rest = none := lookupEntry_eq_none_of_lt hsorted.1
    have hnext : ∀ σ₁ : Substitution, (∀ w, w ≠ v → σ₁.get w = σ.get w) → ∀ journal₁,
        ∃ σ' journal', mergeBindings rest σ₁ journal₁ = some (true, σ', journal') :=
      fun σ₁ hσ₁ journal₁ => mergeBindings_true_of_solution γ rest σ₁ journal₁ hsorted.2
        fun w t t0 h ht0 => by
          obtain ⟨hw, h⟩ := lookupEntry_cons_of_tail hrest h
          exact hbound w t t0 h (by rwa [hσ₁ w hw] at ht0)
    cases hv : σ.get v with
    | none =>
      obtain ⟨σ', j', h⟩ := hnext (σ.insert v t1)
        (fun w hw => by rw [Substitution.insert_of_get_eq_none _ hv, Substitution.get_set_of_ne _ _ hw])
        (journal ++ [.erase v])
      exact ⟨σ', j', by simp [mergeBindings, hv, h]⟩
    | some t0 =>
      obtain ⟨hl, hn, heq⟩ := hbound v t1 t0 (by simp [lookupEntry]) hv
      obtain ⟨u, hu, hex⟩ := unifier_complete γ hl hn heq
      obtain ⟨σ', j', h⟩ := hnext (σ.set v u.apply) (fun w hw => Substitution.get_set_of_ne _ _ hw)
        (journal ++ [.restore v t0])
      exact ⟨σ', j', by simp [mergeBindings, hv, hu, hex, h]⟩

/-- A merge loop that returns true, from a ground substitution, over ground bindings `Compatible`
with those they meet: every variable it met was bound to the new binding already, and the result
is the union. The unifier of two ground terms of the same functors exists only for equal terms
(`unifier_sound`), and applies to the left one. -/
theorem mergeBindings_sound :
    ∀ (entries : List (String × Term)) (σ : Substitution) (journal : List Undo)
      {σ'' : Substitution} {journal' : List Undo}, (keys entries).Sorted (· < ·) →
      BindsGround σ → (∀ v t1, lookupEntry v entries = some t1 → t1.isGround = true) →
      (∀ v t0 t1, σ.get v = some t0 → lookupEntry v entries = some t1 → Compatible t0 t1) →
      mergeBindings entries σ journal = some (true, σ'', journal') →
      (∀ v t0 t1, σ.get v = some t0 → lookupEntry v entries = some t1 → t0 = t1) ∧
        ∀ w, σ''.get w = (σ.get w).or (lookupEntry w entries)
  | [], σ, journal, σ'', journal', _, _, _, _, h => by
    simp only [mergeBindings, Option.some.injEq, Prod.mk.injEq, true_and] at h
    obtain ⟨rfl, -⟩ := h
    exact ⟨fun _ _ _ _ h => (nomatch h), fun w => by simp [lookupEntry]⟩
  | (v, t1) :: rest, σ, journal, σ'', journal', hsorted, hσ, hground, hcompat, h => by
    simp only [keys, List.map_cons, List.sorted_cons] at hsorted
    have hrest : lookupEntry v rest = none := lookupEntry_eq_none_of_lt hsorted.1
    have hself : lookupEntry v ((v, t1) :: rest) = some t1 := by simp [lookupEntry]
    have hground' : ∀ w t, lookupEntry w rest = some t → t.isGround = true :=
      fun w t h => hground w t (lookupEntry_cons_of_tail hrest h).2
    -- the rest of the run, from a substitution that agrees with `σ` off `v`
    have hnext : ∀ σ₁ : Substitution, BindsGround σ₁ → σ₁.get v = (σ.get v).or (some t1) →
        (∀ w, w ≠ v → σ₁.get w = σ.get w) → ∀ journal₁,
        mergeBindings rest σ₁ journal₁ = some (true, σ'', journal') →
        (∀ w t0 t, σ.get w = some t0 → lookupEntry w rest = some t → t0 = t) ∧
          ∀ w, σ''.get w = (σ.get w).or (lookupEntry w ((v, t1) :: rest)) := by
      intro σ₁ hσ₁ hv hagree journal₁ hrun
      have hw : ∀ w t, lookupEntry w rest = some t → w ≠ v :=
        fun w t h => (@lookupEntry_cons_of_tail v w t1 t rest hrest h).1
      obtain ⟨heq, hget⟩ := mergeBindings_sound rest σ₁ journal₁ hsorted.2 hσ₁ hground'
        (fun w t0 t h₀ h => hcompat w t0 t (by rwa [hagree w (hw w t h)] at h₀)
          (lookupEntry_cons_of_tail hrest h).2) hrun
      refine ⟨fun w t0 t h₀ h => heq w t0 t (by rwa [hagree w (hw w t h)]) h, fun w => ?_⟩
      rw [hget]
      by_cases hwv : w = v
      · subst hwv; simp [hv, hrest, lookupEntry]
      · simp [hagree w hwv, hwv, lookupEntry]
    cases hσv : σ.get v with
    | none =>
      simp only [mergeBindings, hσv] at h
      rw [Substitution.insert_of_get_eq_none _ hσv] at h
      obtain ⟨heq, hget⟩ := hnext _ (hσ.set v (hground v t1 hself)) (by simp [hσv])
        (fun w hw => Substitution.get_set_of_ne _ _ hw) _ h
      refine ⟨fun w t0 t h₀ h => ?_, hget⟩
      by_cases hwv : w = v
      · subst hwv; rw [hσv] at h₀; cases h₀
      · exact heq w t0 t h₀ (by simpa [lookupEntry, hwv] using h)
    | some t0 =>
      simp only [mergeBindings, hσv] at h
      split at h
      · cases h
      · rename_i u hu
        split_ifs at h with hex
        · have hg0 := hσ v t0 hσv
          have hg1 := hground v t1 hself
          have hvars : (t0.vars ++ t1.vars).Nodup := by
            rw [(Term.isGround_iff_vars_eq_nil t0).1 hg0, (Term.isGround_iff_vars_eq_nil t1).1 hg1]
            exact List.nodup_nil
          obtain ⟨hsound, happly⟩ := unifier_sound hvars (hcompat v t0 t1 hσv hself) hu hex
          rw [Term.apply_of_isGround hg0, Term.apply_of_isGround hg1] at hsound
          rw [Term.apply_of_isGround hg0] at happly
          subst hsound
          have hfixed : σ.set v u.apply = σ := Substitution.ext fun w => by
            by_cases hw : w = v
            · subst hw; simp [hσv, happly]
            · simp [hw]
          rw [hfixed] at h
          obtain ⟨heq, hget⟩ := hnext σ hσ (by simp [hσv]) (fun _ _ => rfl) _ h
          refine ⟨fun w t0' t h₀ h => ?_, hget⟩
          by_cases hwv : w = v
          · subst hwv
            rw [hσv] at h₀
            rw [hself] at h
            cases h₀; cases h; rfl
          · exact heq w t0' t h₀ (by simpa [lookupEntry, hwv] using h)
        · simp at h

/-- `unifyWith` and `combine` succeed on substitutions with a common solution, where the terms the
first one binds hold no list and no NaN. On ground substitutions whose shared bindings are
`Compatible`, a success means a common solution, and the result's solutions are exactly the common
ones. They also succeed where no common solution exists: on `{X ↦ f(a)}` and `{X ↦ g(a)}`, whose
unifier compares `f(a)` with itself, and on `{X ↦ f(Y), Y ↦ b}` and `{X ↦ f(a)}`, where the
unifier binds `Y ↦ a` and the merge keeps only `X ↦ f(a)`. -/
theorem unifyWith_succeeds_without_common_solution :
    (∀ σ σ' : Substitution,
      (∀ v t, σ.get v = some t → t.containsList = false ∧ t.containsNaN = false) →
      (∃ γ, IsSolution γ σ ∧ IsSolution γ σ') →
      (∀ reversible, ∃ σ'' r, σ.unifyWith σ' reversible = some (true, σ'', r)) ∧
        ∀ changes, ∃ σ'' d, σ.combine σ' changes = some (true, σ'', d)) ∧
    (∀ σ σ' σ'' : Substitution, BindsGround σ → BindsGround σ' →
      (∀ v t t', σ.get v = some t → σ'.get v = some t' → Compatible t t') →
      ((∃ reversible r, σ.unifyWith σ' reversible = some (true, σ'', r)) ∨
        ∃ changes d, σ.combine σ' changes = some (true, σ'', d)) →
      (∃ γ, IsSolution γ σ ∧ IsSolution γ σ') ∧
        ∀ γ, IsSolution γ σ'' ↔ IsSolution γ σ ∧ IsSolution γ σ') ∧
    ((∃ σ'', (Substitution.empty.set "X" (.predicate "f" [.string "a"])).unifyWith
        (Substitution.empty.set "X" (.predicate "g" [.string "a"])) none = some (true, σ'', none)) ∧
      ¬∃ γ, IsSolution γ (Substitution.empty.set "X" (.predicate "f" [.string "a"])) ∧
        IsSolution γ (Substitution.empty.set "X" (.predicate "g" [.string "a"]))) ∧
    (∃ σ'', ((Substitution.empty.set "X" (.predicate "f" [.variable "Y"])).set "Y"
        (.string "b")).unifyWith (Substitution.empty.set "X" (.predicate "f" [.string "a"])) none =
          some (true, σ'', none)) ∧
      ¬∃ γ, IsSolution γ ((Substitution.empty.set "X" (.predicate "f" [.variable "Y"])).set "Y"
          (.string "b")) ∧ IsSolution γ (Substitution.empty.set "X" (.predicate "f" [.string "a"])) := by
  refine ⟨fun σ σ' hσ ⟨γ, hγ, hγ'⟩ => ?_, fun σ σ' σ'' hσ hσ' hcompat hrun => ?_, ⟨⟨_, rfl⟩, ?_⟩,
    ⟨_, rfl⟩, ?_⟩
  · -- a common solution: every step finds the bound term and the new one equal under `γ`
    have hrun := fun journal => mergeBindings_true_of_solution γ σ'.mapping σ journal σ'.sorted
      fun v t1 t0 h₁ h₀ => ⟨(hσ v t0 h₀).1, (hσ v t0 h₀).2,
        Option.some.inj ((hγ.2 v t0 h₀).symm.trans (hγ'.2 v t1 h₁))⟩
    refine ⟨fun reversible => ?_, fun changes => ?_⟩
    · obtain ⟨σ'', j, h⟩ := hrun (reversible.getD [])
      exact ⟨σ'', reversible.map fun _ => j, by simp [Substitution.unifyWith, h]⟩
    · obtain ⟨σ'', d, h⟩ := hrun changes
      exact ⟨σ'', d, h⟩
  · -- a success on ground substitutions: the result is the union, and solves what both solve
    have hmerge : ∃ journal journal', mergeBindings σ'.mapping σ journal =
        some (true, σ'', journal') := by
      rcases hrun with ⟨reversible, r, h⟩ | ⟨changes, d, h⟩
      · simp only [Substitution.unifyWith, Option.map_eq_some', Prod.mk.injEq] at h
        obtain ⟨⟨b, σ₂, j⟩, h, rfl, rfl, -⟩ := h
        exact ⟨_, _, h⟩
      · exact ⟨_, _, h⟩
    obtain ⟨journal, journal', h⟩ := hmerge
    obtain ⟨heq, hget⟩ := mergeBindings_sound σ'.mapping σ journal σ'.sorted hσ hσ' hcompat h
    change ∀ w, σ''.get w = (σ.get w).or (σ'.get w) at hget
    have hσ'' : BindsGround σ'' := fun v t ht => by
      rw [hget v] at ht
      cases hv : σ.get v with
      | none => rw [hv] at ht; exact hσ' v t ht
      | some t₀ => rw [hv] at ht; cases ht; exact hσ v _ hv
    have hsolves : ∀ γ, IsSolution γ σ'' ↔ IsSolution γ σ ∧ IsSolution γ σ' := fun γ => by
      constructor
      · rintro ⟨hg, hsol⟩
        refine ⟨⟨hg, fun v t ht => hsol v t (by rw [hget v, ht]; rfl)⟩, ⟨hg, fun v t ht => ?_⟩⟩
        refine hsol v t ?_
        rw [hget v]
        cases hv : σ.get v with
        | none => simp [ht]
        | some t₀ => rw [heq v t₀ t hv ht]; rfl
      · rintro ⟨⟨hg, hsol⟩, -, hsol'⟩
        refine ⟨hg, fun v t ht => ?_⟩
        rw [hget v] at ht
        cases hv : σ.get v with
        | none => rw [hv] at ht; exact hsol' v t ht
        | some t₀ => rw [hv] at ht; cases ht; exact hsol v t hv
    refine ⟨⟨σ'', (hsolves σ'').1 ⟨hσ'', fun v t ht => ?_⟩⟩, hsolves⟩
    rw [Term.apply_of_isGround (hσ'' v t ht)]
    exact ht
  · rintro ⟨γ, ⟨-, hσ⟩, ⟨-, hσ₁⟩⟩
    have h := (hσ "X" _ rfl).symm.trans (hσ₁ "X" _ rfl)
    simp [Term.apply_of_isGround (t := .predicate "f" [.string "a"]) rfl,
      Term.apply_of_isGround (t := .predicate "g" [.string "a"]) rfl] at h
  · rintro ⟨γ, ⟨-, hσ⟩, ⟨-, hσ'⟩⟩
    have hY := hσ "Y" (.string "b") (by decide)
    have hX := hσ "X" (.predicate "f" [.variable "Y"]) (by decide)
    have hX' := hσ' "X" (.predicate "f" [.string "a"]) (by decide)
    simp only [Term.apply_predicate, Term.apply_of_isGround (t := .string "b") rfl] at hY hX hX'
    simp [Term.isGround, applySubstitution, hY] at hX hX'
    rw [hX] at hX'
    simp at hX'

/-! ### Merges that share one journal -/

/-- The undo entry a merge records for the variable `v` of `σ`: erase `v` if `σ` leaves it
unbound, restore its binding else. -/
def undoOf (σ : Substitution) (v : String) : Undo :=
  match σ.get v with
  | none => .erase v
  | some t => .restore v t

/-- Undoing `v` on a substitution that binds it gives `v` its binding in `σ` back and keeps every
other variable. -/
theorem run_undoOf {σ τ : Substitution} {v : String} (hv : τ.contains v = true) :
    ∃ τ', (undoOf σ v).run τ = some τ' ∧ τ'.get v = σ.get v ∧
      ∀ w, w ≠ v → τ'.get w = τ.get w := by
  unfold undoOf
  cases hσ : σ.get v with
  | none => exact ⟨τ.erase v, by simp [Undo.run, hv], by simp, fun w hw => by simp [hw]⟩
  | some t => exact ⟨τ.set v t, by simp [Undo.run, hv], by simp, fun w hw => by simp [hw]⟩

/-- Replaying the undo entries of distinct variables, all bound, restores `σ` from a substitution
that agrees with it on every other variable. The entries touch different variables, so the order
they are replayed in does not matter. -/
theorem replay_undoOf {σ : Substitution} : ∀ {vs : List String} {τ : Substitution}, vs.Nodup →
    (∀ v ∈ vs, τ.contains v = true) → (∀ w, w ∉ vs → τ.get w = σ.get w) →
    Substitution.replay (vs.map (undoOf σ)) τ = some σ
  | [], τ, _, _, hagree => by
    rw [List.map_nil, Substitution.replay, Substitution.ext fun w => hagree w (List.not_mem_nil w)]
  | v :: vs, τ, hnd, hbound, hagree => by
    obtain ⟨τ', hrun, hv, hw⟩ := run_undoOf (σ := σ) (hbound v (List.mem_cons_self v vs))
    rw [List.nodup_cons] at hnd
    rw [List.map_cons, Substitution.replay, hrun, Option.some_bind]
    refine replay_undoOf hnd.2 (fun u hu => ?_) (fun w hw' => ?_)
    · have hu' : u ≠ v := fun h => hnd.1 (h ▸ hu)
      simpa [Substitution.contains, hw u hu'] using hbound u (List.mem_cons_of_mem v hu)
    · by_cases hwv : w = v
      · subst hwv; exact hv
      · rw [hw w hwv, hagree w (by simp [hwv, hw'])]

/-- A merge run records one undo entry, taken before the merge touched it, for each variable it
merged, a prefix of the other substitution's keys; it leaves those variables bound and every other
variable as it was. -/
theorem mergeBindings_journal :
    ∀ (entries : List (String × Term)) (σ : Substitution) (journal : List Undo) {b : Bool}
      {σ' : Substitution} {journal' : List Undo}, (keys entries).Sorted (· < ·) →
      mergeBindings entries σ journal = some (b, σ', journal') →
      ∃ vs, vs <+: keys entries ∧ journal' = journal ++ vs.map (undoOf σ) ∧
        (∀ v ∈ vs, σ'.contains v = true) ∧ ∀ w, w ∉ vs → σ'.get w = σ.get w
  | [], σ, journal, b, σ', journal', _, h => by
    simp only [mergeBindings, Option.some.injEq, Prod.mk.injEq] at h
    obtain ⟨-, rfl, rfl⟩ := h
    exact ⟨[], List.nil_prefix, by simp, by simp, fun _ _ => rfl⟩
  | (v, t1) :: rest, σ, journal, b, σ', journal', hsorted, h => by
    simp only [keys, List.map_cons, List.sorted_cons] at hsorted
    have hv : v ∉ keys rest := fun hmem => lt_irrefl v (hsorted.1 v hmem)
    -- the step binds `v` and records `undoOf σ v`; the rest of the run follows from there
    have step : ∀ σ₁ : Substitution, σ₁.contains v = true → (∀ w, w ≠ v → σ₁.get w = σ.get w) →
        mergeBindings rest σ₁ (journal ++ [undoOf σ v]) = some (b, σ', journal') →
        ∃ vs, vs <+: keys ((v, t1) :: rest) ∧ journal' = journal ++ vs.map (undoOf σ) ∧
          (∀ v ∈ vs, σ'.contains v = true) ∧ ∀ w, w ∉ vs → σ'.get w = σ.get w := by
      intro σ₁ hσ₁ hagree₁ hrun
      obtain ⟨vs, hpre, rfl, hbound, hagree⟩ := mergeBindings_journal rest σ₁ _ hsorted.2 hrun
      have hvs : ∀ w ∈ vs, w ≠ v := fun w hw h => hv (h ▸ hpre.subset hw)
      refine ⟨v :: vs, (List.prefix_cons_inj v).2 hpre, ?_, ?_, fun w hw => ?_⟩
      · have hmap : vs.map (undoOf σ₁) = vs.map (undoOf σ) := List.map_congr_left fun w hw => by
          simp only [undoOf, hagree₁ w (hvs w hw)]
        rw [hmap, List.map_cons, List.append_assoc, List.singleton_append]
      · rintro u (_ | ⟨_, hu⟩)
        · simpa [Substitution.contains, hagree v fun h => hv (hpre.subset h)] using hσ₁
        · exact hbound u hu
      · simp only [List.mem_cons, not_or] at hw
        rw [hagree w hw.2, hagree₁ w hw.1]
    cases hσv : σ.get v with
    | none =>
      simp only [mergeBindings, hσv] at h
      refine step (σ.insert v t1)
        (by simp [Substitution.insert_of_get_eq_none _ hσv, Substitution.contains])
        (fun w hw => by simp [Substitution.insert_of_get_eq_none _ hσv, hw]) ?_
      simpa [undoOf, hσv] using h
    | some t0 =>
      simp only [mergeBindings, hσv] at h
      split at h
      · cases h
      · split_ifs at h
        · exact step (σ.set v _) (by simp [Substitution.contains]) (fun w hw => by simp [hw])
            (by simpa [undoOf, hσv] using h)
        · simp only [Option.some.injEq, Prod.mk.injEq] at h
          obtain ⟨-, rfl, rfl⟩ := h
          exact ⟨[], List.nil_prefix, by simp, by simp, fun _ _ => rfl⟩

/-- Successive `combine(other, changes)` calls on one `Diff`, one for each substitution of
`others` in turn, whatever each returns. -/
def combineAll (σ : Substitution) : List Substitution → Diff → Option (Substitution × Diff)
  | [], changes => some (σ, changes)
  | other :: others, changes =>
    (σ.combine other changes).bind fun r => combineAll r.2.1 others r.2.2

/-- Successive `unifyWith(other, &reversible)` calls on one `Reversible`, whatever each returns. -/
def unifyWithAll (σ : Substitution) : List Substitution → Reversible →
    Option (Substitution × Reversible)
  | [], reversible => some (σ, reversible)
  | other :: others, reversible =>
    (σ.unifyWith other (some reversible)).bind fun r => unifyWithAll r.2.1 others (r.2.2.getD [])

/-- The variables the substitutions bind, all together. -/
def boundKeys (others : List Substitution) : List String :=
  others.flatMap fun other => keys other.mapping

theorem unifyWithAll_eq_combineAll : ∀ (σ : Substitution) (others : List Substitution)
    (journal : List Undo), unifyWithAll σ others journal = combineAll σ others journal
  | _, [], _ => rfl
  | σ, other :: others, journal => by
    simp only [unifyWithAll, combineAll, Substitution.unifyWith, Substitution.combine,
      Option.getD_some]
    cases mergeBindings other.mapping σ journal with
    | none => rfl
    | some r => exact unifyWithAll_eq_combineAll _ others _

/-- A run of merges into one journal records one undo entry, taken from the start, for each
variable it merged, when no variable is bound by two of the merged substitutions; it leaves those
variables bound and every other variable as it was. -/
theorem combineAll_journal : ∀ (others : List Substitution) (σ : Substitution)
    (journal : List Undo) {σ' : Substitution} {journal' : List Undo}, (boundKeys others).Nodup →
    combineAll σ others journal = some (σ', journal') →
    ∃ vs : List String, vs.Sublist (boundKeys others) ∧ journal' = journal ++ vs.map (undoOf σ) ∧
      (∀ v ∈ vs, σ'.contains v = true) ∧ ∀ w, w ∉ vs → σ'.get w = σ.get w
  | [], σ, journal, σ', journal', _, h => by
    simp only [combineAll, Option.some.injEq, Prod.mk.injEq] at h
    obtain ⟨rfl, rfl⟩ := h
    exact ⟨[], List.nil_sublist _, by simp, by simp, fun _ _ => rfl⟩
  | other :: others, σ, journal, σ', journal', hnd, h => by
    simp only [boundKeys, List.flatMap_cons] at hnd
    obtain ⟨-, hnd, hdisj⟩ := List.nodup_append.1 hnd
    simp only [combineAll, Substitution.combine, Option.bind_eq_some] at h
    obtain ⟨⟨b, σ₁, journal₁⟩, h₁, h₂⟩ := h
    obtain ⟨vs₁, hpre, rfl, hbound₁, hagree₁⟩ := mergeBindings_journal _ σ journal other.sorted h₁
    obtain ⟨vs₂, hsub, rfl, hbound₂, hagree₂⟩ := combineAll_journal others σ₁ _ hnd h₂
    -- the second part of the run touches no variable the first merge touched
    have hout : ∀ w ∈ vs₂, w ∉ vs₁ := fun w hw hw₁ =>
      hdisj (hpre.sublist.subset hw₁) (hsub.subset hw)
    refine ⟨vs₁ ++ vs₂, hpre.sublist.append hsub, ?_, fun v hv => ?_, fun w hw => ?_⟩
    · have hmap : vs₂.map (undoOf σ₁) = vs₂.map (undoOf σ) := List.map_congr_left fun w hw => by
        simp only [undoOf, hagree₁ w (hout w hw)]
      rw [hmap, List.map_append, List.append_assoc]
    · by_cases hv₂ : v ∈ vs₂
      · exact hbound₂ v hv₂
      · have hv₁ : v ∈ vs₁ := (List.mem_append.1 hv).resolve_right hv₂
        simpa [Substitution.contains, hagree₂ v hv₂] using hbound₁ v hv₁
    · simp only [List.mem_append, not_or] at hw
      rw [hagree₂ w hw.2, hagree₁ w hw.1]

/-- Merges that share one journal, started empty, roll back to the substitution they started
from, however many there are and whether each succeeds or stops at a binding that does not unify,
when no variable is bound by two of the merged substitutions. Each merge then touches variables
that no other touches, once, so the order the queue replays the entries in does not matter.
Likewise for `unifyWith` and one `Reversible`. -/
theorem rollBack_restores_disjoint_merges {σ σ' : Substitution} {others : List Substitution}
    (hkeys : (boundKeys others).Nodup) :
    (∀ {d}, combineAll σ others [] = some (σ', d) → σ'.rollBack d = some σ) ∧
    ∀ {j}, unifyWithAll σ others [] = some (σ', j) → σ'.rollBackReversible j = some σ := by
  have hreplay : ∀ {d}, combineAll σ others [] = some (σ', d) →
      Substitution.replay d σ' = some σ := fun h => by
    obtain ⟨vs, hsub, rfl, hbound, hagree⟩ := combineAll_journal others σ [] hkeys h
    exact replay_undoOf (hkeys.sublist hsub) hbound hagree
  exact ⟨hreplay, fun h => hreplay (unifyWithAll_eq_combineAll σ others [] ▸ h)⟩

/-- From `{X ↦ Y}`, merge `{X ↦ a}` and then `{Z ↦ b}` into one `Diff`: the first rebinds `X`,
the second adds `Z`, and rolling back restores `{X ↦ Y}`. -/
theorem rollBack_restores_rebind_then_insert :
    (boundKeys [Substitution.empty.set "X" (.string "a"),
      Substitution.empty.set "Z" (.string "b")]).Nodup ∧
    ∃ σ' d, combineAll (Substitution.empty.set "X" (.variable "Y"))
        [Substitution.empty.set "X" (.string "a"), Substitution.empty.set "Z" (.string "b")] [] =
        some (σ', d) ∧
      σ'.rollBack d = some (Substitution.empty.set "X" (.variable "Y")) :=
  have h : combineAll (Substitution.empty.set "X" (.variable "Y"))
      [Substitution.empty.set "X" (.string "a"), Substitution.empty.set "Z" (.string "b")] [] =
      some (_, _) := rfl
  ⟨by decide, _, _, h, (rollBack_restores_disjoint_merges (by decide)).1 h⟩

/-! ### Two merges that touch the same variable -/

/-- From the empty substitution, merge `{X ↦ Y}` and then `{X ↦ a}` into one journal, and roll
back: the queue undoes the insertion of `X` first and then writes through the erased entry. The
same happens with `combine` and one `Diff`. Without an erased entry the order still shows: from
`{X ↦ Y}`, merging `{X ↦ a}` twice and rolling back restores `X ↦ Y` first and then `X ↦ a`, so
the rollback ends with `{X ↦ a}`. -/
theorem rollBack_after_two_merges :
    (do
      let (_, σ₁, j₁) ← Substitution.empty.unifyWith
        (Substitution.empty.set "X" (.variable "Y")) (some [])
      let (_, σ₂, j₂) ← σ₁.unifyWith (Substitution.empty.set "X" (.string "a")) j₁
      Substitution.rollBackReversible σ₂ (j₂.getD [])) = none ∧
    (do
      let (_, σ₁, d₁) ← Substitution.empty.combine (Substitution.empty.set "X" (.variable "Y")) []
      let (_, σ₂, d₂) ← σ₁.combine (Substitution.empty.set "X" (.string "a")) d₁
      σ₂.rollBack d₂) = none ∧
    (do
      let (_, σ₁, j₁) ← (Substitution.empty.set "X" (.variable "Y")).unifyWith
        (Substitution.empty.set "X" (.string "a")) (some [])
      let (_, σ₂, j₂) ← σ₁.unifyWith (Substitution.empty.set "X" (.string "a")) j₁
      Substitution.rollBackReversible σ₂ (j₂.getD [])) =
      some (Substitution.empty.set "X" (.string "a")) ∧
    (do
      let (_, σ₁, d₁) ← (Substitution.empty.set "X" (.variable "Y")).combine
        (Substitution.empty.set "X" (.string "a")) []
      let (_, σ₂, d₂) ← σ₁.combine (Substitution.empty.set "X" (.string "a")) d₁
      σ₂.rollBack d₂) = some (Substitution.empty.set "X" (.string "a")) :=
  ⟨by decide, by decide, by decide, by decide⟩

end Knowrob
