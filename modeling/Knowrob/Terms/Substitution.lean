import Knowrob.Terms.Term

/-!
# Substitutions

A `Substitution` is a `std::map<Variable, TermPtr>`. The model keeps the map as its list of entries
in the map's own order, by increasing variable name, so that iterating over a substitution, as
`unifyWith` does, visits the bindings in the order the code visits them. The order is a field of
the structure: no operation can produce a list with a repeated or misplaced key, and two
substitutions with the same bindings are equal (`ext`).

`terms.cpp` and `Substitution.cpp` disagree on `set`: the first overwrites an existing binding
(`mapping_[var] = term`), the second keeps it (`mapping_.insert`). Both are here, as `set` and
`insert`; the unifier of `terms.cpp` uses the first.
-/

namespace Knowrob

/-- `Variable::operator<` on the keys of a substitution: names compared as `std::string` compares
them, character by character. -/
def keyLt (a b : String) : Bool := decide (a.toList < b.toList)

theorem keyLt_iff {a b : String} : keyLt a b = true ↔ a < b := by
  simp [keyLt, String.lt_iff_toList_lt]

/-- The bound term of a variable in a list of entries. -/
def lookupEntry (v : String) : List (String × Term) → Option Term
  | [] => none
  | (k, t) :: rest => if v = k then some t else lookupEntry v rest

/-- `mapping_[var] = term` on a list of entries ordered by key. -/
def setEntry (v : String) (t : Term) : List (String × Term) → List (String × Term)
  | [] => [(v, t)]
  | (k, u) :: rest =>
    if v = k then (v, t) :: rest
    else if keyLt v k then (v, t) :: (k, u) :: rest
    else (k, u) :: setEntry v t rest

abbrev keys (l : List (String × Term)) : List String := l.map Prod.fst

theorem mem_keys_setEntry {v k : String} {t : Term} :
    ∀ {l : List (String × Term)}, k ∈ keys (setEntry v t l) → k = v ∨ k ∈ keys l
  | [] => by simp [setEntry]
  | (k', u) :: rest => by
    unfold setEntry
    split_ifs with heq hlt
    · subst heq; simp_all
    · simp only [keys, List.map_cons, List.mem_cons]; tauto
    · simp only [keys, List.map_cons, List.mem_cons]
      rintro (rfl | hmem)
      · exact .inr (.inl rfl)
      · rcases mem_keys_setEntry hmem with h | h <;> simp_all

theorem sorted_setEntry (v : String) (t : Term) :
    ∀ {l : List (String × Term)}, (keys l).Sorted (· < ·) → (keys (setEntry v t l)).Sorted (· < ·)
  | [] => by simp [setEntry]
  | (k, u) :: rest => by
    intro hsorted
    simp only [keys, List.map_cons, List.sorted_cons] at hsorted
    unfold setEntry
    split_ifs with heq hlt
    · subst heq; simpa using hsorted
    · have hvk : v < k := keyLt_iff.mp hlt
      simp only [keys, List.map_cons, List.sorted_cons, List.mem_cons]
      exact ⟨fun b hb => hb.elim (· ▸ hvk) (fun hb => hvk.trans (hsorted.1 b hb)), hsorted.1,
        hsorted.2⟩
    · have hkv : k < v := lt_of_le_of_ne (not_lt.mp (mt keyLt_iff.mpr hlt)) (Ne.symm heq)
      simp only [keys, List.map_cons, List.sorted_cons]
      refine ⟨fun b hb => ?_, sorted_setEntry v t hsorted.2⟩
      rcases mem_keys_setEntry hb with rfl | hb
      · exact hkv
      · exact hsorted.1 b hb

theorem lookupEntry_setEntry (v w : String) (t : Term) :
    ∀ l : List (String × Term), lookupEntry w (setEntry v t l) =
      if w = v then some t else lookupEntry w l
  | [] => by simp [setEntry, lookupEntry]
  | (k, u) :: rest => by
    have ih := lookupEntry_setEntry v w t rest
    unfold setEntry
    split_ifs with heq hlt <;> simp only [lookupEntry, ih] <;> split_ifs <;> simp_all

theorem lookupEntry_eq_none_of_lt {v : String} :
    ∀ {l : List (String × Term)}, (∀ k ∈ keys l, v < k) → lookupEntry v l = none
  | [] => fun _ => rfl
  | (k, u) :: rest => fun h => by
    have hvk : v < k := h k (by simp)
    simp only [lookupEntry, ne_of_lt hvk, if_false]
    exact lookupEntry_eq_none_of_lt fun b hb => h b (by simp [hb])

theorem lookupEntry_filter (v w : String) :
    ∀ l : List (String × Term), lookupEntry w (l.filter (fun e => e.1 ≠ v)) =
      if w = v then none else lookupEntry w l
  | [] => by simp [lookupEntry]
  | (k, u) :: rest => by
    have ih := lookupEntry_filter v w rest
    simp only [ne_eq, decide_not] at ih ⊢
    by_cases hkv : k = v
    · subst hkv
      by_cases hw : w = k
      · subst hw; simpa [List.filter_cons] using ih
      · simp [List.filter_cons, lookupEntry, hw, ih]
    · by_cases hw : w = v
      · subst hw
        simp [List.filter_cons, lookupEntry, hkv, Ne.symm hkv, ih]
      · simp [List.filter_cons, lookupEntry, hkv, hw, ih]

/-- Two ordered lists of entries with the same lookups are the same list. -/
theorem eq_of_lookupEntry_eq :
    ∀ {l₁ l₂ : List (String × Term)}, (keys l₁).Sorted (· < ·) → (keys l₂).Sorted (· < ·) →
      (∀ v, lookupEntry v l₁ = lookupEntry v l₂) → l₁ = l₂
  | [], [], _, _, _ => rfl
  | [], (k, u) :: _, _, _, h => by simpa [lookupEntry] using h k
  | (k, u) :: _, [], _, _, h => by simpa [lookupEntry] using (h k).symm
  | (k₁, u₁) :: r₁, (k₂, u₂) :: r₂, h₁, h₂, h => by
    simp only [keys, List.map_cons, List.sorted_cons] at h₁ h₂
    have hk : k₁ = k₂ := by
      by_contra hne
      rcases lt_or_gt_of_ne hne with hlt | hgt
      · have := h k₁
        simp [lookupEntry, hne, lookupEntry_eq_none_of_lt fun b hb => hlt.trans (h₂.1 b hb)] at this
      · have := h k₂
        simp [lookupEntry, Ne.symm hne,
          lookupEntry_eq_none_of_lt fun b hb => hgt.trans (h₁.1 b hb)] at this
    subst hk
    have hu : u₁ = u₂ := by simpa [lookupEntry] using h k₁
    subst hu
    congr 1
    refine eq_of_lookupEntry_eq h₁.2 h₂.2 fun v => ?_
    by_cases hv : v = k₁
    · subst hv
      rw [lookupEntry_eq_none_of_lt h₁.1, lookupEntry_eq_none_of_lt h₂.1]
    · simpa [lookupEntry, hv] using h v

/-- A `Substitution`: the entries of its `std::map<Variable, TermPtr>` in the map's order. A
variable is keyed by its name. -/
structure Substitution where
  mapping : List (String × Term)
  sorted : (keys mapping).Sorted (· < ·)

namespace Substitution

def empty : Substitution := ⟨[], List.sorted_nil⟩

instance : Inhabited Substitution := ⟨empty⟩

/-- `Substitution::get`: the bound term, or the null pointer. -/
def get (σ : Substitution) (v : String) : Option Term := lookupEntry v σ.mapping

def contains (σ : Substitution) (v : String) : Bool := (σ.get v).isSome

/-- `Substitution::set` of `terms.cpp`: `mapping_[var] = term` binds or rebinds. -/
def set (σ : Substitution) (v : String) (t : Term) : Substitution :=
  ⟨setEntry v t σ.mapping, sorted_setEntry v t σ.sorted⟩

/-- `mapping_.insert(pair)` (and `Substitution::set` of `Substitution.cpp`): binds an unbound
variable, and leaves a bound one as it is. -/
def insert (σ : Substitution) (v : String) (t : Term) : Substitution :=
  if σ.contains v then σ else σ.set v t

/-- `mapping_.erase(var)`. -/
def erase (σ : Substitution) (v : String) : Substitution :=
  ⟨σ.mapping.filter (fun e => e.1 ≠ v), σ.sorted.sublist ((List.filter_sublist _).map _)⟩

/-- Whether the substitution has no binding, `mapping_.empty()`. -/
def isEmpty (σ : Substitution) : Bool := σ.mapping.isEmpty

@[ext] theorem ext {σ τ : Substitution} (h : ∀ v, σ.get v = τ.get v) : σ = τ := by
  cases σ; cases τ
  simp only [mk.injEq]
  exact eq_of_lookupEntry_eq ‹_› ‹_› h

@[simp] theorem get_empty (v : String) : empty.get v = none := rfl

theorem get_set (σ : Substitution) (v w : String) (t : Term) :
    (σ.set v t).get w = if w = v then some t else σ.get w :=
  lookupEntry_setEntry v w t σ.mapping

@[simp] theorem get_set_self (σ : Substitution) (v : String) (t : Term) :
    (σ.set v t).get v = some t := by simp [get_set]

@[simp] theorem get_set_of_ne (σ : Substitution) {v w : String} (t : Term) (h : w ≠ v) :
    (σ.set v t).get w = σ.get w := by simp [get_set, h]

theorem get_erase (σ : Substitution) (v w : String) :
    (σ.erase v).get w = if w = v then none else σ.get w :=
  lookupEntry_filter v w σ.mapping

@[simp] theorem get_erase_self (σ : Substitution) (v : String) : (σ.erase v).get v = none := by
  simp [get_erase]

@[simp] theorem get_erase_of_ne (σ : Substitution) {v w : String} (h : w ≠ v) :
    (σ.erase v).get w = σ.get w := by simp [get_erase, h]

theorem insert_of_get_eq_none {σ : Substitution} {v : String} (t : Term) (h : σ.get v = none) :
    σ.insert v t = σ.set v t := by
  simp [insert, contains, h]

theorem isEmpty_iff (σ : Substitution) : σ.isEmpty = true ↔ ∀ v, σ.get v = none := by
  constructor
  · intro h v
    simp only [isEmpty, List.isEmpty_iff] at h
    simp [get, h, lookupEntry]
  · intro h
    have : σ = empty := ext fun v => by simp [h v]
    subst this; rfl

end Substitution

end Knowrob
