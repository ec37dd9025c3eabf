import Knowrob.Queries.Render

/-!
# Parsing the text of a formula gives the formula back

`parse_render`: for every formula of the fragment (predicates with a lower-case functor and
variables, atoms and compounds as arguments; negation; option-free modal operators; conjunctions
and disjunctions of two or more operands; implications), `QueryParser::parse` of its text is the
formula with nested conjunctions and disjunctions spliced in.

The parser's alternatives are ordered and backtrack, and `brackets` is offered again at every
level, so the proof follows the derivation the parser takes on each text. For a flat formula it
shows, by structural recursion:

* every rule at a level at least the formula's reads its text (`ReadsAt`), and a rule at a lower
  level fails on its bracketed text (`formulaRule_level_fail`), so that `rule | brackets` reads it
  either way (`operandRule_reads`);
* a chain of operands separated by `,` or `;` is read operand by operand (`chain_reads`), the
  connective rules being right-recursive.

Flattening does not change the text, so the parse of a formula's text is the parse of its flat
form's text.
-/

namespace Knowrob

open Parser Formula

namespace QueryParser

variable {registry : PrefixRegistry}

/-! ### Characters -/

theorem isSpace_eq_false_of_isAlpha {c : Char} (h : c.isAlpha) : isSpace c = false := by
  cases hs : isSpace c
  · rfl
  · simp only [isSpace, Bool.or_eq_true, beq_iff_eq] at hs
    rcases hs with ((((rfl | rfl) | rfl) | rfl) | rfl) | rfl <;> exact absurd h (by decide)

theorem isUpper_eq_false_of_isLower {c : Char} (h : c.isLower) : c.isUpper = false := by
  simp only [Char.isUpper, Char.isLower, Bool.and_eq_true, decide_eq_true_eq, ge_iff_le,
    UInt32.le_def, BitVec.le_def, Bool.and_eq_false_iff, decide_eq_false_iff_not, not_le,
    UInt32.toBitVec_ofNat, BitVec.toNat_ofNat] at h ⊢
  omega

/-- The text of an identifier starts with its first character. -/
theorem eq_cons_of_isIdent {first : Char → Bool} :
    ∀ {cs : List Char}, isIdent first cs → ∃ c cs', cs = c :: cs' ∧ first c
  | c :: cs, h => ⟨c, cs, rfl, by simp_all [isIdent_cons]⟩

/-! ### Arguments -/

/-- What follows an argument: the next one or the closing bracket. -/
def ArgumentFollows (u : List Char) : Prop := ∃ u', u = ',' :: u' ∨ u = ')' :: u'

theorem ArgumentFollows.endsIdent {u : List Char} (h : ArgumentFollows u) : EndsIdent u := by
  obtain ⟨u', rfl | rfl⟩ := h <;> simp [EndsIdent] <;> decide

theorem ArgumentFollows.ne_colon {u : List Char} (h : ArgumentFollows u) : ∀ d ∈ u.head?, d ≠ ':' := by
  obtain ⟨u', rfl | rfl⟩ := h <;> simp

/-- The text of a plain argument starts with a letter. -/
theorem Term.render_eq_cons {t : Term} (ht : t.isPlainArgument) :
    ∃ c cs, t.render = c :: cs ∧ c.isAlpha := by
  cases t with
  | «variable» x =>
    obtain ⟨c, cs, h, hc⟩ := eq_cons_of_isIdent (by simpa [Term.isPlainArgument] using ht)
    exact ⟨c, cs, by simp [Term.render, h], isAlpha_of_isUpper hc⟩
  | string a =>
    obtain ⟨c, cs, h, hc⟩ := eq_cons_of_isIdent (by simpa [Term.isPlainArgument] using ht)
    exact ⟨c, cs, by simp [Term.render, h], isAlpha_of_isLower hc⟩
  | predicate f args =>
    simp only [Term.isPlainArgument, Bool.and_eq_true] at ht
    obtain ⟨c, cs, h, hc⟩ := eq_cons_of_isIdent ht.1.1
    exact ⟨c, cs ++ '(' :: (Term.render.renderArguments args ++ [')']), by simp [Term.render, h],
      isAlpha_of_isLower hc⟩
  | _ => simp [Term.isPlainArgument] at ht

theorem Term.length_render_pos {t : Term} (ht : t.isPlainArgument) : 0 < t.render.length := by
  obtain ⟨c, cs, h, -⟩ := Term.render_eq_cons ht
  simp [h]

theorem Term.render_length_ge : ∀ ts : List Term, Term.isPlainArgument.allPlain ts →
    ts.length ≤ (Term.render.renderArguments ts).length
  | [], _ => le_refl _
  | [t], h => by
    simp only [Term.isPlainArgument.allPlain, Bool.and_true] at h
    simpa [Term.render.renderArguments] using Term.length_render_pos h
  | t :: v :: ts, h => by
    simp only [Term.isPlainArgument.allPlain, Bool.and_eq_true] at h
    have := Term.render_length_ge (v :: ts) (by simpa [Term.isPlainArgument.allPlain] using h.2)
    simp only [Term.render.renderArguments, List.length_append, List.length_cons] at this ⊢
    omega

/-- A token of a rule with or without a skipper reads a text that starts with a letter alike. -/
theorem token_of_isAlpha {α : Type} (skipper : Bool) (p : Parser α) {s : List Char} {c : Char}
    (hs : s.head? = some c) (hc : c.isAlpha) : token skipper p s = p s := by
  obtain _ | ⟨d, s⟩ := s
  · simp at hs
  · simp only [List.head?_cons, Option.some.injEq] at hs
    subst hs
    cases skipper <;> simp [token, isSpace_eq_false_of_isAlpha hc]

theorem token_char_fail {skipper : Bool} {c d : Char} (hd : d ≠ c) (hsp : isSpace d = false)
    (u : List Char) : token skipper (char c) (d :: u) = .fail := by
  cases skipper <;> simp [token, hsp, char_cons_of_ne hd]

theorem token_char_self {skipper : Bool} {c : Char} (hsp : isSpace c = false) (u : List Char) :
    token skipper (char c) (c :: u) = .ok c u := by
  cases skipper <;> simp [token, hsp]

mutual
theorem argument_reads : ∀ t : Term, t.isPlainArgument → ∀ u, ArgumentFollows u →
    ∀ m, t.render.length + 1 ≤ m → argument registry m (t.render ++ u) = .ok t u
  | .variable x, ht, u, hu, k + 1, _ => by
    have hx : isIdent Char.isUpper x.data := by simpa [Term.isPlainArgument] using ht
    simp [argument, compound, functorArguments, token, Term.render,
      atomRaw_upper_fail hx hu.endsIdent hu.ne_colon, variable_upper hx hu.endsIdent]
  | .string a, ht, u, hu, k + 1, _ => by
    have ha : isIdent Char.isLower a.data := by simpa [Term.isPlainArgument] using ht
    obtain ⟨c, cs, hcs, hc⟩ := eq_cons_of_isIdent ha
    have hatom := @atomRaw_lower registry _ _ ha hu.endsIdent hu.ne_colon
    have hvar : «variable» (a.data ++ u) = .fail := by
      simp [«variable», upperPrefix, hcs, identifier_fail (isUpper_eq_false_of_isLower hc)]
    obtain ⟨u', rfl | rfl⟩ := hu <;>
    simp [argument, compound, functorArguments, token, Term.render, constant, atom, hatom, hvar,
      char_cons_of_ne]
  | .predicate f args, ht, u, hu, k + 1, hk => by
    simp only [Term.isPlainArgument, Bool.and_eq_true, Bool.not_eq_true', List.isEmpty_eq_false] at ht
    have hargs := arguments_read false args ht.2 ht.1.2 u k k (by
      have := Term.render_length_ge args ht.2; simp [Term.render] at hk; omega) (by
      simp [Term.render] at hk; omega)
    simp only [token_false] at hargs
    have hf := @atomRaw_lower registry _ ('(' :: (Term.render.renderArguments args ++ ')' :: u))
      ht.1.1 (by simp [EndsIdent]; decide) (by simp)
    simp [argument, compound, functorArguments, token, Term.render, hf, hargs]
  | .list _, ht, _, _, _, _ | .double _, ht, _, _, _, _ | .int32 _, ht, _, _, _, _
  | .long _, ht, _, _, _, _ | .top, ht, _, _, _, _ | .bottom, ht, _, _, _, _ => by
    simp [Term.isPlainArgument] at ht

theorem arguments_read (skipper : Bool) : ∀ ts : List Term, Term.isPlainArgument.allPlain ts →
    ts ≠ [] → ∀ u k m, ts.length ≤ k → (Term.render.renderArguments ts).length + 1 ≤ m →
      sepBy (token skipper (argument registry m)) (token skipper (char ',')) k
        (Term.render.renderArguments ts ++ ')' :: u) = .ok ts (')' :: u)
  | [], _, h, _, _, _, _, _ => absurd rfl h
  | [t], hts, _, u, k + 1, m, _, hm => by
    simp only [Term.isPlainArgument.allPlain, Bool.and_true] at hts
    obtain ⟨c, cs, hcs, hc⟩ := Term.render_eq_cons hts
    simp only [Term.render.renderArguments] at hm ⊢
    refine sepBy_singleton k ?_ (token_char_fail (by decide) (by decide) u)
    rw [token_of_isAlpha skipper _ (by simp [hcs]) hc]
    exact argument_reads t hts _ ⟨u, .inr rfl⟩ m hm
  | t :: v :: ts, hts, _, u, k + 1, m, hk, hm => by
    simp only [Term.isPlainArgument.allPlain, Bool.and_eq_true] at hts
    obtain ⟨c, cs, hcs, hc⟩ := Term.render_eq_cons hts.1
    simp only [Term.render.renderArguments, List.length_append, List.length_cons] at hm ⊢
    rw [List.append_assoc, List.cons_append]
    refine sepBy_cons ?_ (token_char_self (by decide) _) (arguments_read skipper (v :: ts)
      (by simpa [Term.isPlainArgument.allPlain] using hts.2) (List.cons_ne_nil _ _) u k m
      (by simpa using hk) (by omega))
    rw [token_of_isAlpha skipper _ (by simp [hcs]) hc]
    exact argument_reads t hts.1 _ ⟨_, .inl rfl⟩ m (by omega)
end

/-! ### Where an operand ends -/

/-- What may follow the text of an operand at level `L` in the text of a formula: nothing, a
closing bracket, or the separator of a connective above level `L`. -/
def Stops (L : Nat) : List Char → Prop
  | [] => True
  | c :: _ => c = ')' ∨ (L = 0 ∧ c = ',') ∨ (L ≤ 1 ∧ c = ';') ∨ (L ≤ 2 ∧ c = '-')

theorem Stops.mono {L L' : Nat} (h : L ≤ L') : ∀ {rest : List Char}, Stops L' rest → Stops L rest
  | [], _ => trivial
  | _ :: _, hs => by
    simp only [Stops] at hs ⊢
    rcases hs with h | ⟨h1, h2⟩ | ⟨h1, h2⟩ | ⟨h1, h2⟩
    · exact .inl h
    · exact .inr (.inl ⟨by omega, h2⟩)
    · exact .inr (.inr (.inl ⟨by omega, h2⟩))
    · exact .inr (.inr (.inr ⟨by omega, h2⟩))

theorem Stops.head {L : Nat} : ∀ {rest : List Char}, Stops L rest →
    ∀ c ∈ rest.head?, c = ')' ∨ c = ',' ∨ c = ';' ∨ c = '-'
  | _ :: _, hs, _, rfl => by
    simp only [Stops] at hs
    rcases hs with h | ⟨-, h⟩ | ⟨-, h⟩ | ⟨-, h⟩ <;> simp [h]

theorem Stops.endsIdent {L : Nat} {rest : List Char} (h : Stops L rest) : EndsIdent rest :=
  fun c hc => by rcases h.head c hc with rfl | rfl | rfl | rfl <;> decide

theorem Stops.ne_colon {L : Nat} {rest : List Char} (h : Stops L rest) : ∀ c ∈ rest.head?, c ≠ ':' :=
  fun c hc => by rcases h.head c hc with rfl | rfl | rfl | rfl <;> decide

theorem Stops.not_space {L : Nat} {rest : List Char} (h : Stops L rest) :
    ∀ c ∈ rest.head?, isSpace c = false :=
  fun c hc => by rcases h.head c hc with rfl | rfl | rfl | rfl <;> decide

/-- A character that cannot follow an operand is not read after it. -/
theorem Stops.preskip_char_fail {L : Nat} {rest : List Char} (h : Stops L rest) {c : Char}
    (hc : c ≠ ')' ∧ c ≠ ',' ∧ c ≠ ';' ∧ c ≠ '-') : preskip (char c) rest = .fail := by
  rw [preskip_of_head h.not_space]
  refine char_fail fun d hd => ?_
  rcases h.head d hd with rfl | rfl | rfl | rfl <;> tauto

/-! ### Predicates -/

theorem predicate_reads (p : Predicate) (hp : (Formula.predicate p).inFragment) {rest : List Char}
    (hrest : Stops 0 rest) {n : Nat} (hn : (Formula.predicate p).render.length + 1 ≤ n) :
    predicate registry n ((Formula.predicate p).render ++ rest) = .ok p rest := by
  obtain ⟨f, args⟩ := p
  simp only [inFragment, Bool.and_eq_true] at hp
  obtain ⟨c, cs, hcs, hc⟩ := eq_cons_of_isIdent hp.1
  have hsp : ∀ u : List Char, ∀ d ∈ (f.data ++ u).head?, isSpace d = false := by
    simp [hcs, isSpace_eq_false_of_isAlpha (isAlpha_of_isLower hc)]
  cases args with
  | nil =>
    have hatom := @atomRaw_lower registry _ _ hp.1 hrest.endsIdent hrest.ne_colon
    simp [predicate, predicateWithArgs, predicateNullary, functorArguments, render,
      preskip_of_head (hsp rest), hatom, hrest.preskip_char_fail (c := '(') (by decide)]
  | cons a as =>
    have hargs := @arguments_read registry true (a :: as) hp.2 (List.cons_ne_nil _ _)
      rest n n (by have := Term.render_length_ge _ hp.2; simp [render] at hn; omega)
      (by simp [render] at hn; omega)
    have hatom := @atomRaw_lower registry _
      ('(' :: (Term.render.renderArguments (a :: as) ++ ')' :: rest)) hp.1 (by simp [EndsIdent]; decide) (by simp)
    simp only [token_true] at hargs
    simp [predicate, predicateWithArgs, functorArguments, render, preskip_of_head (hsp _), hatom,
      hargs, isSpace]

/-! ### Levels -/

/-- The rule that reads the formulas of level at most `L`. -/
def levelRule : Nat → FormulaRule
  | 0 => .unary
  | 1 => .conjunction
  | 2 => .disjunction
  | _ => .implication

@[simp] theorem levelRule_zero : levelRule 0 = .unary := rfl

@[simp] theorem levelRule_one : levelRule 1 = .conjunction := rfl

@[simp] theorem levelRule_two : levelRule 2 = .disjunction := rfl

@[simp] theorem levelRule_three : levelRule 3 = .implication := rfl

/-- `rule | brackets`, the alternatives that read an operand at level `L`. -/
def operandRule (registry : PrefixRegistry) (n L : Nat) : Parser Formula :=
  formulaRule registry n (levelRule L) <|> formulaRule registry n .brackets

/-- The fuel that reading the text `t` at level `L` takes at most. -/
def cost (L : Nat) (t : List Char) : Nat := 3 * t.length + L + 4

/-- The rule at level `L` reads the text of `φ` before any text that can follow it there. -/
def ReadsAt (registry : PrefixRegistry) (L : Nat) (φ : Formula) : Prop :=
  ∀ rest, Stops L rest → ∀ n, cost L φ.render ≤ n →
    formulaRule registry n (levelRule L) (φ.render ++ rest) = .ok φ rest

/-- The alternatives of an operand at level `L` read `φ` written as such an operand. -/
def OperandReads (registry : PrefixRegistry) (L : Nat) (φ : Formula) : Prop :=
  ∀ rest, Stops L rest → ∀ n, cost L (renderOperand L φ) ≤ n →
    operandRule registry n L (renderOperand L φ ++ rest) = .ok φ rest

/-- Every rule from `φ`'s own level up reads `φ`. -/
def Reads (registry : PrefixRegistry) (φ : Formula) : Prop :=
  ∀ L, φ.level ≤ L → L ≤ 3 → ReadsAt registry L φ

theorem level_le_three (φ : Formula) : φ.level ≤ 3 := by
  cases φ <;> simp [level]

theorem conjunction_sep_fail : ∀ {rest : List Char}, Stops 1 rest →
    (preskip (char ',') <|> preskip (char '&')) rest = .fail
  | [], _ => rfl
  | _ :: _, h => by
    simp only [Stops] at h
    rcases h with rfl | ⟨h, -⟩ | ⟨-, rfl⟩ | ⟨-, rfl⟩
    all_goals first | omega | simp [isSpace, preskip_cons, char_cons_of_ne]

theorem disjunction_sep_fail : ∀ {rest : List Char}, Stops 2 rest →
    (preskip (char ';') <|> preskip (char '|')) rest = .fail
  | [], _ => rfl
  | _ :: _, h => by
    simp only [Stops] at h
    rcases h with rfl | ⟨h, -⟩ | ⟨h, -⟩ | ⟨-, rfl⟩
    all_goals first | omega | simp [isSpace, preskip_cons, char_cons_of_ne]

theorem implication_sep_fail : ∀ {rest : List Char}, Stops 3 rest →
    preskip (lit ['-', '>']) rest = .fail
  | [], _ => rfl
  | _ :: _, h => by
    simp only [Stops] at h
    rcases h with rfl | ⟨h, -⟩ | ⟨h, -⟩ | ⟨h, -⟩
    all_goals first | omega | simp [isSpace, preskip_cons, lit, char_cons_of_ne]

/-- A rule one level up reads what the rule below reads, when no separator of its own follows. -/
theorem ReadsAt.succ {L : Nat} {φ : Formula} (h : ReadsAt registry L φ) (hL : L < 3) :
    ReadsAt registry (L + 1) φ := by
  intro rest hrest n hn
  obtain ⟨m, rfl⟩ : ∃ m, n = m + 1 := ⟨n - 1, by simp only [cost] at hn; omega⟩
  have hlow := h rest (hrest.mono (by omega)) m (by simp only [cost] at hn ⊢; omega)
  rcases (by omega : L = 0 ∨ L = 1 ∨ L = 2) with rfl | rfl | rfl
  · exact connective_of_lower hlow (conjunction_sep_fail hrest)
  · exact connective_of_lower hlow (disjunction_sep_fail hrest)
  · exact connective_of_lower hlow (implication_sep_fail hrest)

theorem ReadsAt.lift {L : Nat} {φ : Formula} (h : ReadsAt registry L φ) :
    ∀ {L'}, L ≤ L' → L' ≤ 3 → ReadsAt registry L' φ
  | _, .refl, _ => h
  | _, .step hle, hL' => (h.lift hle (by omega)).succ (by omega)

theorem reads_of_readsAt {φ : Formula} (h : ReadsAt registry φ.level φ) : Reads registry φ :=
  fun _ hL hL' => h.lift hL hL'

/-! ### Brackets -/

theorem brackets_reads {φ : Formula} (h : ReadsAt registry 3 φ) (rest : List Char) {n : Nat}
    (hn : cost 3 φ.render + 2 ≤ n) :
    formulaRule registry n .brackets ('(' :: φ.render ++ ')' :: rest) = .ok φ rest := by
  obtain ⟨m, rfl⟩ : ∃ m, n = m + 2 := ⟨n - 2, by omega⟩
  have himp := h (')' :: rest) (by simp [Stops]) m (by omega)
  simp only [levelRule_three] at himp
  simp [formulaRule, formulaStep, isSpace, himp]

/-- A rule below the brackets' level fails on a bracketed formula: it reads the brackets, and then
finds no separator of its own. -/
theorem formulaRule_level_fail {φ : Formula} (h : ReadsAt registry 3 φ) :
    ∀ L, L ≤ 3 → ∀ {rest}, Stops L rest → ∀ n, cost 3 φ.render + L + 3 ≤ n →
      formulaRule registry n (levelRule L) ('(' :: φ.render ++ ')' :: rest) = .fail
  | 0, _, _, _, n, hn => by
    obtain ⟨m, rfl⟩ : ∃ m, n = m + 3 := ⟨n - 3, by omega⟩
    exact unary_fail_of_head (by decide) (by decide) (by decide) (by decide) m _
  | L + 1, hL, rest, hrest, n, hn => by
    obtain ⟨m, rfl⟩ : ∃ m, n = m + 1 := ⟨n - 1, by omega⟩
    have hlow := formulaRule_level_fail h L (by omega) (hrest.mono (by omega)) m (by omega)
    have hb := brackets_reads h rest (n := m) (by omega)
    rcases (by omega : L = 0 ∨ L = 1 ∨ L = 2) with rfl | rfl | rfl
    · exact connective_fail hlow hb (conjunction_sep_fail hrest)
    · exact connective_fail hlow hb (disjunction_sep_fail hrest)
    · exact connective_fail hlow hb (implication_sep_fail hrest)

/-- `rule | brackets` reads a formula that every rule from its level up reads, written as an
operand at any level. -/
theorem Reads.operand {φ : Formula} (h : Reads registry φ) {L : Nat} (hL : L ≤ 3) :
    OperandReads registry L φ := by
  intro rest hrest n hn
  have h3 := h 3 (level_le_three φ) le_rfl
  by_cases hlev : φ.level ≤ L
  · have hr : renderOperand L φ = φ.render := by simp [renderOperand, bracketIf]; omega
    rw [hr] at hn ⊢
    simp [operandRule, h L hlev hL rest hrest n hn]
  · have hlt : L < φ.level := by omega
    have hr : renderOperand L φ ++ rest = '(' :: φ.render ++ ')' :: rest := by
      simp [renderOperand, bracketIf, hlt]
    have hlen : (renderOperand L φ).length = φ.render.length + 2 := by
      simp [renderOperand, bracketIf, hlt]
    simp only [cost, hlen] at hn
    rw [hr, operandRule, orElse_apply, formulaRule_level_fail h3 L hL hrest n (by
      simp only [cost]; omega), brackets_reads h3 rest (by simp only [cost]; omega)]
    rfl

/-! ### Unary formulas -/

theorem renderOperand_three (φ : Formula) : renderOperand 3 φ = φ.render := by
  simp [renderOperand, bracketIf, Nat.not_lt.2 (level_le_three φ)]

theorem renderOperand_pred {L : Nat} {φ : Formula} (hL : 1 ≤ L) (h : φ.level ≠ L) :
    renderOperand (L - 1) φ = renderOperand L φ := by
  have : L - 1 < φ.level ↔ L < φ.level := by omega
  simp only [renderOperand, this]

/-- A formula written as a unary operand starts with a bracket, `~` or a letter. -/
theorem renderOperand_zero_head {φ : Formula} (hφ : φ.inFragment) :
    ∃ c cs, renderOperand 0 φ = c :: cs ∧ c ≠ '[' ∧ isSpace c = false := by
  match φ, hφ with
  | .predicate ⟨f, args⟩, hφ =>
    simp only [inFragment, Bool.and_eq_true] at hφ
    obtain ⟨c, cs, hcs, hc⟩ := eq_cons_of_isIdent hφ.1
    have hne : c ≠ '[' := by rintro rfl; simp at hc
    cases args <;>
    simp [renderOperand, bracketIf, level, render, hcs, hne,
      isSpace_eq_false_of_isAlpha (isAlpha_of_isLower hc)]
  | .negation _, _ => exact ⟨'~', _, rfl, by decide, by decide⟩
  | .modal op _, _ => exact ⟨op.symbol, _, rfl, by cases op <;> simp [ModalOperator.symbol, isSpace]⟩
  | .conjunction _, _ | .disjunction _, _ | .implication _ _, _ =>
    exact ⟨'(', _, rfl, by decide, by decide⟩

/-- A unary formula that starts with a lower-case letter is a predicate. -/
theorem unary_of_isLower {c : Char} (hc : c.isLower) (m : Nat) (s : List Char) :
    formulaRule registry (m + 3) .unary (c :: s) =
      (Formula.predicate <$> predicate registry (m + 2)) (c :: s) := by
  have hne : ∀ d : Char, d.isLower = false → c ≠ d := by rintro d hd rfl; simp_all
  have hsp := isSpace_eq_false_of_isAlpha (isAlpha_of_isLower hc)
  simp [formulaRule, formulaStep, modal_fail_of_head, hne 'B' rfl, hne 'K' rfl, hne 'P' rfl,
    hne 'H' rfl, hsp, char_cons_of_ne (hne '~' rfl)]

theorem predicate_readsAt (p : Predicate) (hp : (Formula.predicate p).inFragment) :
    ReadsAt registry 0 (.predicate p) := by
  intro rest hrest n hn
  obtain ⟨m, rfl⟩ : ∃ m, n = m + 3 := ⟨n - 3, by simp only [cost] at hn; omega⟩
  obtain ⟨c, t, ht, hc⟩ : ∃ c t, (Formula.predicate p).render ++ rest = c :: t ∧ c.isLower := by
    obtain ⟨f, args⟩ := p
    simp only [inFragment, Bool.and_eq_true] at hp
    obtain ⟨c, cs, hcs, hc⟩ := eq_cons_of_isIdent hp.1
    cases args <;> exact ⟨c, _, by simp only [render, hcs, List.cons_append]; rfl, hc⟩
  rw [levelRule_zero, ht, unary_of_isLower hc, ← ht, map_apply,
    predicate_reads p hp hrest (by simp only [cost] at hn; omega)]
  rfl

/-- `~` and an operand. -/
theorem negation_readsAt {φ : Formula} (h : OperandReads registry 0 φ) :
    ReadsAt registry 0 (.negation φ) := by
  intro rest hrest n hn
  have hr : (Formula.negation φ).render = '~' :: renderOperand 0 φ := rfl
  rw [hr] at hn ⊢
  simp only [cost, List.length_cons] at hn
  obtain ⟨m, rfl⟩ : ∃ m, n = m + 3 := ⟨n - 3, by omega⟩
  have hφ := h rest hrest (m + 1) (by simp only [cost]; omega)
  simp only [operandRule, levelRule_zero, orElse_apply] at hφ
  rw [levelRule_zero, formulaRule.eq_2]
  simp only [formulaStep, orElse_apply, List.cons_append,
    modalFormula_fail (c := '~') (by decide) (by decide) (by decide) (by decide) (by decide),
    Outcome.fail_orElse]
  rw [formulaRule.eq_2]
  simp [formulaStep, isSpace, hφ, Formula.not]

/-- The symbol of a modal operator, no option list, and the body. -/
theorem modal_reads (symbol : Char) (create : Term → Except QueryError ModalOperator)
    {op : ModalOperator} (hcreate : create (.list []) = .ok op) (hsym : isSpace symbol = false)
    {body : Parser Formula} {s rest : List Char} {φ : Formula}
    (hs : ∀ d ∈ s.head?, d ≠ '[' ∧ isSpace d = false) (hbody : body s = .ok φ rest) (n : Nat) :
    modal registry symbol create body n (symbol :: s) = .ok (.modal op φ) rest := by
  have hopt : options registry n s = .fail := by
    simp [options, bracketList, char_fail fun d hd => (hs d hd).1]
  simp [modal, hsym, preskip_of_head fun d hd => (hs d hd).2, hopt, nil, hbody, hcreate]

/-- The modal rules two calls down: `B`, `K`, `P` and `H` in this order, each with an operand as
its body. -/
theorem modalFormula_eq (m : Nat) :
    formulaRule registry (m + 2) .modalFormula =
      (modal registry 'B' createB (formulaRule registry m .unary <|> formulaRule registry m .brackets) m <|>
        modal registry 'K' createK (formulaRule registry m .unary <|> formulaRule registry m .brackets) m <|>
        modal registry 'P' createP (formulaRule registry m .unary <|> formulaRule registry m .brackets) m <|>
        modal registry 'H' createH (formulaRule registry m .unary <|> formulaRule registry m .brackets) m) :=
  rfl

/-- The rule of an option-free operator reads it, and the modal rules before it fail on its
symbol. -/
theorem modalFormula_reads {op : ModalOperator} (hop : op.isOptionFree) {s rest : List Char}
    {φ : Formula} (hs : ∀ d ∈ s.head?, d ≠ '[' ∧ isSpace d = false) {m : Nat}
    (hφ : (formulaRule registry m .unary <|> formulaRule registry m .brackets) s = .ok φ rest) :
    formulaRule registry (m + 2) .modalFormula (op.symbol :: s) = .ok (.modal op φ) rest := by
  rw [modalFormula_eq]
  match op, hop with
  | .belief none none, _ => simp [ModalOperator.symbol, modal_reads 'B' createB rfl rfl hs hφ]
  | .knowledge none, _ =>
    simp [ModalOperator.symbol, isSpace, modal_fail_of_head, modal_reads 'K' createK rfl rfl hs hφ]
  | .oncePast none, _ =>
    simp [ModalOperator.symbol, isSpace, modal_fail_of_head, modal_reads 'P' createP rfl rfl hs hφ]
  | .alwaysPast none, _ =>
    simp [ModalOperator.symbol, isSpace, modal_fail_of_head, modal_reads 'H' createH rfl rfl hs hφ]

/-- An option-free modal operator and an operand. -/
theorem modal_readsAt {op : ModalOperator} (hop : op.isOptionFree) {φ : Formula}
    (hhead : ∃ c cs, renderOperand 0 φ = c :: cs ∧ c ≠ '[' ∧ isSpace c = false)
    (h : OperandReads registry 0 φ) : ReadsAt registry 0 (.modal op φ) := by
  intro rest hrest n hn
  have hr : (Formula.modal op φ).render = op.symbol :: renderOperand 0 φ := rfl
  rw [hr] at hn ⊢
  simp only [cost, List.length_cons] at hn
  obtain ⟨m, rfl⟩ : ∃ m, n = m + 4 := ⟨n - 4, by omega⟩
  have hφ := h rest hrest (m + 1) (by simp only [cost]; omega)
  simp only [operandRule, levelRule_zero] at hφ
  obtain ⟨c, cs, hcs, hc⟩ := hhead
  have hs : ∀ d ∈ (renderOperand 0 φ ++ rest).head?, d ≠ '[' ∧ isSpace d = false := by
    simp [hcs, hc]
  have hmodal := modalFormula_reads hop hs hφ
  rw [levelRule_zero, formulaRule.eq_2]
  simp only [formulaStep, orElse_apply, List.cons_append, hmodal, Outcome.ok_orElse]

/-! ### Chains of operands -/

theorem conjuncts_of_level_ne {φ : Formula} (h : φ.level ≠ 1) : φ.conjuncts = [φ] := by
  cases φ <;> simp_all [level, conjuncts]

theorem disjuncts_of_level_ne {φ : Formula} (h : φ.level ≠ 2) : φ.disjuncts = [φ] := by
  cases φ <;> simp_all [level, disjuncts]

section Chain

variable {β : Type} {L : Nat} {c : Char} {sep : Parser β} {combine : Formula → Formula → Formula}
  {mk : List Formula → Formula}

/-- The rule at level `L` (a connective with separator `sep`, written `c`) reads an operand one
level down, the separator, and whatever `rule | brackets` then reads. -/
theorem chain_step (hL : 1 ≤ L ∧ L ≤ 2)
    (hstep : ∀ m, formulaRule registry (m + 1) (levelRule L) =
      connective (formulaRule registry m (levelRule (L - 1))) (formulaRule registry m (levelRule L))
        (formulaRule registry m .brackets) sep combine)
    (hc : ∀ u, Stops (L - 1) (c :: u)) (hsep : ∀ u, ∃ b, sep (c :: u) = .ok b u)
    {φ ψ : Formula} (hφ : φ.level ≠ L ∧ Reads registry φ) {t rest : List Char} {m : Nat}
    (hm : cost (L - 1) (renderOperand L φ) ≤ m) (hself : operandRule registry m L (t ++ rest) = .ok ψ rest) :
    formulaRule registry (m + 1) (levelRule L) (renderOperand L φ ++ c :: (t ++ rest)) =
      .ok (combine φ ψ) rest := by
  rw [hstep m, ← renderOperand_pred hL.1 hφ.1]
  rw [← renderOperand_pred hL.1 hφ.1] at hm
  obtain ⟨b, hb⟩ := hsep (t ++ rest)
  exact connective_of_sep (hφ.2.operand (by omega) _ (hc _) m hm) hb hself

/-- A chain of two or more operands, none of them at level `L`, is read at level `L`. -/
theorem chain_reads (hL : 1 ≤ L ∧ L ≤ 2)
    (hstep : ∀ m, formulaRule registry (m + 1) (levelRule L) =
      connective (formulaRule registry m (levelRule (L - 1))) (formulaRule registry m (levelRule L))
        (formulaRule registry m .brackets) sep combine)
    (hc : ∀ u, Stops (L - 1) (c :: u)) (hsep : ∀ u, ∃ b, sep (c :: u) = .ok b u)
    (hpair : ∀ φ ψ : Formula, φ.level ≠ L → ψ.level ≠ L → combine φ ψ = mk [φ, ψ])
    (hcons : ∀ φ ψs, φ.level ≠ L → combine φ (mk ψs) = mk (φ :: ψs)) :
    ∀ φ ψ ψs, (∀ χ ∈ φ :: ψ :: ψs, χ.level ≠ L ∧ Reads registry χ) →
      ∀ rest, Stops L rest → ∀ n, cost L (renderList L c (φ :: ψ :: ψs)) ≤ n →
        formulaRule registry n (levelRule L) (renderList L c (φ :: ψ :: ψs) ++ rest) =
          .ok (mk (φ :: ψ :: ψs)) rest
  | φ, ψ, ψs, h, rest, hrest, n, hn => by
    have hφ := h φ (List.mem_cons_self _ _)
    rw [renderList_cons_cons] at hn ⊢
    simp only [cost, List.length_append, List.length_cons] at hn
    obtain ⟨m, rfl⟩ : ∃ m, n = m + 1 := ⟨n - 1, by omega⟩
    rw [List.append_assoc, List.cons_append]
    match ψs with
    | [] =>
      have hψ := h ψ (by simp)
      rw [← hpair φ ψ hφ.1 hψ.1]
      rw [renderList_singleton] at hn ⊢
      exact chain_step hL hstep hc hsep hφ (by simp only [cost]; omega)
        (hψ.2.operand (by omega) rest hrest m (by simp only [cost]; omega))
    | χ :: χs =>
      have ih := chain_reads hL hstep hc hsep hpair hcons ψ χ χs
        (fun x hx => h x (List.mem_cons_of_mem _ hx)) rest hrest m (by simp only [cost]; omega)
      rw [← hcons φ _ hφ.1]
      exact chain_step hL hstep hc hsep hφ (by simp only [cost]; omega)
        (by simp only [operandRule, orElse_apply, ih, Outcome.ok_orElse])
termination_by structural _ _ ψs => ψs

end Chain

theorem conjunction_readsAt {φs : List Formula} (hlen : 2 ≤ φs.length)
    (h : ∀ φ ∈ φs, φ.level ≠ 1 ∧ Reads registry φ) : ReadsAt registry 1 (.conjunction φs) :=
  match φs, hlen with
  | φ :: ψ :: ψs, _ =>
    chain_reads (c := ',') ⟨le_rfl, by omega⟩ (fun _ => rfl) (fun _ => by simp [Stops])
      (fun u => ⟨',', by simp [isSpace]⟩)
      (fun φ ψ hφ hψ => by simp [Formula.and, conjuncts_of_level_ne hφ, conjuncts_of_level_ne hψ])
      (fun φ ψs hφ => by simp [Formula.and, conjuncts_of_level_ne hφ]) φ ψ ψs h

theorem disjunction_readsAt {φs : List Formula} (hlen : 2 ≤ φs.length)
    (h : ∀ φ ∈ φs, φ.level ≠ 2 ∧ Reads registry φ) : ReadsAt registry 2 (.disjunction φs) :=
  match φs, hlen with
  | φ :: ψ :: ψs, _ =>
    chain_reads (c := ';') ⟨by omega, le_rfl⟩ (fun _ => rfl) (fun _ => by simp [Stops])
      (fun u => ⟨';', by simp [isSpace]⟩)
      (fun φ ψ hφ hψ => by simp [Formula.or, disjuncts_of_level_ne hφ, disjuncts_of_level_ne hψ])
      (fun φ ψs hφ => by simp [Formula.or, disjuncts_of_level_ne hφ]) φ ψ ψs h

/-- An operand one level down, `->`, and an operand at the implication's own level. -/
theorem implication_readsAt {φ ψ : Formula} (hφ : Reads registry φ) (hψ : Reads registry ψ) :
    ReadsAt registry 3 (.implication φ ψ) := by
  intro rest hrest n hn
  have hr : (Formula.implication φ ψ).render =
      renderOperand 2 φ ++ '-' :: '>' :: renderOperand 3 ψ := by
    rw [renderOperand_three]; rfl
  rw [hr] at hn ⊢
  simp only [cost, List.length_append, List.length_cons] at hn
  obtain ⟨m, rfl⟩ : ∃ m, n = m + 1 := ⟨n - 1, by omega⟩
  rw [List.append_assoc, List.cons_append, List.cons_append]
  exact connective_of_sep
    (hφ.operand (L := 2) (by omega) _ (by simp [Stops]) m (by simp only [cost]; omega))
    (by simp [isSpace, lit] : preskip (lit ['-', '>']) ('-' :: '>' :: (renderOperand 3 ψ ++ rest)) =
      .ok () _)
    (hψ.operand le_rfl rest hrest m (by simp only [cost]; omega))

/-! ### Every flat formula of the fragment is read -/

mutual

theorem reads : ∀ φ : Formula, φ.inFragment → φ.isFlat → Reads registry φ
  | .predicate p, h, _ => reads_of_readsAt (predicate_readsAt p h)
  | .negation φ, h, hf => reads_of_readsAt (negation_readsAt ((reads φ h hf).operand (by omega)))
  | .modal op φ, h, hf => by
    simp only [inFragment, isFlat, Bool.and_eq_true] at h hf
    exact reads_of_readsAt
      (modal_readsAt h.1 (renderOperand_zero_head h.2) ((reads φ h.2 hf).operand (by omega)))
  | .conjunction φs, h, hf => by
    simp only [inFragment, isFlat, Bool.and_eq_true, decide_eq_true_eq] at h hf
    exact reads_of_readsAt (conjunction_readsAt h.1 (reads_list 1 φs h.2 hf))
  | .disjunction φs, h, hf => by
    simp only [inFragment, isFlat, Bool.and_eq_true, decide_eq_true_eq] at h hf
    exact reads_of_readsAt (disjunction_readsAt h.1 (reads_list 2 φs h.2 hf))
  | .implication φ ψ, h, hf => by
    simp only [inFragment, isFlat, Bool.and_eq_true] at h hf
    exact reads_of_readsAt (implication_readsAt (reads φ h.1 hf.1) (reads ψ h.2 hf.2))

theorem reads_list (L : Nat) : ∀ φs : List Formula, allInFragment φs → allFlatBelow L φs →
    ∀ φ ∈ φs, φ.level ≠ L ∧ Reads registry φ
  | [], _, _ => by simp
  | φ :: φs, h, hf => by
    simp only [allInFragment, allFlatBelow, Bool.and_eq_true, bne_iff_ne, ne_eq] at h hf
    have hφ := reads φ h.1 hf.1.2
    have hφs := reads_list L φs h.2 hf.2
    intro χ hχ
    rcases List.mem_cons.1 hχ with rfl | hχ
    · exact ⟨hf.1.1, hφ⟩
    · exact hφs χ hχ

end

/-! ### The round trip -/

theorem parse_render (registry : PrefixRegistry) (φ : Formula) (hφ : φ.inFragment) :
    parse registry (String.mk φ.render) = some (.ok φ.flatten) := by
  have hr := render_flatten φ hφ
  have h := @reads registry φ.flatten (inFragment_flatten φ hφ) (isFlat_flatten φ) 3 (level_le_three _) le_rfl
    [] trivial (8 * φ.render.length + 7) (by simp only [cost, hr]; omega)
  rw [hr, List.append_nil, levelRule_three] at h
  have hfuel : fuelFor (String.mk φ.render) = 8 * φ.render.length + 7 + 1 := by
    simp only [fuelFor, String.length_mk]; omega
  simp only [parse, parse_, hfuel]
  rw [formulaRule.eq_2]
  simp [formulaStep, String.toList, h]

/-- `p(X,f(a)),q,~(r;s)->Bt`, whose nested conjunction comes back spliced into the outer one. -/
theorem parse_render_spliced :
    (Formula.implication
      (.conjunction [.conjunction [.predicate ⟨"p", [.variable "X", .predicate "f" [.string "a"]]⟩,
        .predicate ⟨"q", []⟩], .negation (.disjunction [.predicate ⟨"r", []⟩, .predicate ⟨"s", []⟩])])
      (.modal (.belief none none) (.predicate ⟨"t", []⟩))).inFragment ∧
    parse (fun _ _ => none) (String.mk (Formula.implication
      (.conjunction [.conjunction [.predicate ⟨"p", [.variable "X", .predicate "f" [.string "a"]]⟩,
        .predicate ⟨"q", []⟩], .negation (.disjunction [.predicate ⟨"r", []⟩, .predicate ⟨"s", []⟩])])
      (.modal (.belief none none) (.predicate ⟨"t", []⟩))).render) =
      some (.ok (.implication
        (.conjunction [.predicate ⟨"p", [.variable "X", .predicate "f" [.string "a"]]⟩,
          .predicate ⟨"q", []⟩, .negation (.disjunction [.predicate ⟨"r", []⟩, .predicate ⟨"s", []⟩])])
        (.modal (.belief none none) (.predicate ⟨"t", []⟩)))) :=
  ⟨by decide, parse_render _ _ (by decide)⟩

end QueryParser

end Knowrob
