import Knowrob.Queries.QueryParser

/-!
# Every query parse ends

The grammar of `QueryParser.cpp` has no left recursion: a rule that calls itself, directly or
through other rules, reads a character before it does. Spirit runs such a grammar to an end on
every input, so `QueryParser::parse`, `parsePredicate`, `parseConstant` and `parseRawAtom` return a
result or throw `QueryError` on every query string.

The model bounds the recursion by fuel: a call of a formula rule takes one unit, and so does an
element of a list `p % sep`. The entry points give `fuelFor queryString`, eight units a character.
A formula rule makes at most `callDepth r` nested calls before it reads a character (the longest
chain, from `formula` through `implication`, `disjunction`, `conjunction`, `unary` and
`modalFormula` to `belief`, is seven rules deep), and a list has at most one element per
character; so the fuel is never used up, and `parse_ends` says that none of the entry points is
ever `none`.

The proof has two halves:
* `Consumes p`, a match of `p` reads a character. It holds of every rule the grammar recurses
  through, at every fuel (`consumes_formulaRule`).
* `EndsBelow p k`, `p` does not run out of fuel on an input shorter than `k`. Every combinator
  keeps it, given what its parts read (`formulaRule_endsBelow`).
-/

namespace Knowrob

namespace Outcome

variable {α β : Type}

theorem bind_eq_ok {o : Outcome α} {f : α → Parser β} {b : β} {r : List Char} :
    o.bind f = .ok b r ↔ ∃ a s, o = .ok a s ∧ f a s = .ok b r := by
  cases o with
  | ok a s => exact ⟨fun h => ⟨a, s, rfl, h⟩, fun ⟨_, _, h, h'⟩ => by cases h; exact h'⟩
  | _ => simp

theorem orElse_eq_ok {o o' : Outcome α} {a : α} {r : List Char} :
    o.orElse o' = .ok a r ↔ o = .ok a r ∨ (o = .fail ∧ o' = .ok a r) := by
  cases o <;> simp

theorem bind_ne_exhausted {o : Outcome α} {f : α → Parser β} (ho : o ≠ .exhausted)
    (hf : ∀ a s, o = .ok a s → f a s ≠ .exhausted) : o.bind f ≠ .exhausted := by
  cases o <;> simp_all

theorem orElse_ne_exhausted {o o' : Outcome α} (ho : o ≠ .exhausted) (ho' : o' ≠ .exhausted) :
    o.orElse o' ≠ .exhausted := by
  cases o <;> simp_all

end Outcome

namespace Parser

variable {α β : Type} {p q : Parser α} {f : α → Parser β}

/-- A match of `p` reads at least one character. -/
def Consumes (p : Parser α) : Prop := ∀ s a r, p s = .ok a r → r.length < s.length

/-- A match of `p` leaves at most its input. -/
def Keeps (p : Parser α) : Prop := ∀ s a r, p s = .ok a r → r.length ≤ s.length

/-- `p` never runs out of fuel. -/
def Ends (p : Parser α) : Prop := ∀ s, p s ≠ .exhausted

/-- `p` does not run out of fuel on an input shorter than `k`. -/
def EndsBelow (p : Parser α) (k : Nat) : Prop := ∀ s : List Char, s.length < k → p s ≠ .exhausted

/-! ### What a match reads -/

theorem Consumes.keeps (hp : Consumes p) : Keeps p := fun s a r h => (hp s a r h).le

theorem keeps_pure (a : α) : Keeps (pure a : Parser α) := by
  intro s b r h
  cases h
  exact le_rfl

theorem Keeps.bind (hp : Keeps p) (hf : ∀ a, Keeps (f a)) : Keeps (p >>= f) := by
  intro s b r h
  obtain ⟨a, s', h₁, h₂⟩ := Outcome.bind_eq_ok.1 h
  exact (hf a s' b r h₂).trans (hp s a s' h₁)

theorem Consumes.bind (hp : Consumes p) (hf : ∀ a, Keeps (f a)) : Consumes (p >>= f) := by
  intro s b r h
  obtain ⟨a, s', h₁, h₂⟩ := Outcome.bind_eq_ok.1 h
  exact (hf a s' b r h₂).trans_lt (hp s a s' h₁)

theorem Keeps.bind_consumes (hp : Keeps p) (hf : ∀ a, Consumes (f a)) : Consumes (p >>= f) := by
  intro s b r h
  obtain ⟨a, s', h₁, h₂⟩ := Outcome.bind_eq_ok.1 h
  exact (hf a s' b r h₂).trans_le (hp s a s' h₁)

theorem Keeps.orElse (hp : Keeps p) (hq : Keeps q) : Keeps (p <|> q) := by
  intro s a r h
  rcases Outcome.orElse_eq_ok.1 h with h | ⟨-, h⟩
  exacts [hp s a r h, hq s a r h]

theorem Consumes.orElse (hp : Consumes p) (hq : Consumes q) : Consumes (p <|> q) := by
  intro s a r h
  rcases Outcome.orElse_eq_ok.1 h with h | ⟨-, h⟩
  exacts [hp s a r h, hq s a r h]

theorem Keeps.map (g : α → β) (hp : Keeps p) : Keeps (g <$> p) :=
  hp.bind fun _ => keeps_pure _

theorem Consumes.map (g : α → β) (hp : Consumes p) : Consumes (g <$> p) :=
  hp.bind fun _ => keeps_pure _

theorem Keeps.preskip (hp : Keeps p) : Keeps (preskip p) := fun _ a r h =>
  (hp _ a r h).trans (List.dropWhile_suffix isSpace).length_le

theorem Consumes.preskip (hp : Consumes p) : Consumes (preskip p) := fun _ a r h =>
  (hp _ a r h).trans_le (List.dropWhile_suffix isSpace).length_le

theorem consumes_satisfy (c : Char → Bool) : Consumes (satisfy c) := by
  rintro (_ | ⟨d, s⟩) a r h
  · cases h
  · simp only [satisfy_cons] at h
    split_ifs at h
    cases h
    exact Nat.lt_succ_self _

theorem consumes_char (c : Char) : Consumes (char c) := consumes_satisfy _

theorem keeps_manyChars (c : Char → Bool) : Keeps (manyChars c) := by
  intro s a r h
  cases h
  exact (List.dropWhile_suffix c).length_le

theorem consumes_many1Chars (c : Char → Bool) : Consumes (many1Chars c) :=
  (consumes_satisfy c).bind fun _ => (keeps_manyChars c).bind fun _ => keeps_pure _

theorem keeps_ofExcept (x : Except QueryError α) : Keeps (ofExcept x) := by
  cases x
  · intro s a r h; cases h
  · exact keeps_pure _

theorem keeps_lit : ∀ cs : List Char, Keeps (lit cs)
  | [] => keeps_pure ()
  | c :: cs => (consumes_char c).keeps.bind fun _ => keeps_lit cs

theorem Keeps.sepBy (hp : Keeps p) {sep : Parser β} (hsep : Keeps sep) :
    ∀ n, Keeps (Parser.sepBy p sep n)
  | 0 => fun _ _ _ h => nomatch h
  | n + 1 => hp.bind fun _ => ((hsep.bind fun _ => hp.sepBy hsep n).orElse (keeps_pure _)).bind
      fun _ => keeps_pure _

/-! ### Parsers without fuel -/

theorem ends_pure (a : α) : Ends (pure a : Parser α) := fun _ => nofun

theorem Ends.bind (hp : Ends p) (hf : ∀ a, Ends (f a)) : Ends (p >>= f) := fun s =>
  Outcome.bind_ne_exhausted (hp s) fun a s' _ => hf a s'

theorem Ends.orElse (hp : Ends p) (hq : Ends q) : Ends (p <|> q) := fun s =>
  Outcome.orElse_ne_exhausted (hp s) (hq s)

theorem Ends.map (g : α → β) (hp : Ends p) : Ends (g <$> p) := hp.bind fun _ => ends_pure _

theorem Ends.preskip (hp : Ends p) : Ends (preskip p) := fun _ => hp _

theorem ends_satisfy (c : Char → Bool) : Ends (satisfy c) := by
  rintro (_ | ⟨d, s⟩)
  · nofun
  · simp only [satisfy_cons]
    split_ifs <;> nofun

theorem ends_char (c : Char) : Ends (char c) := ends_satisfy _

theorem ends_manyChars (c : Char → Bool) : Ends (manyChars c) := fun _ => nofun

theorem ends_many1Chars (c : Char → Bool) : Ends (many1Chars c) :=
  (ends_satisfy c).bind fun _ => (ends_manyChars c).bind fun _ => ends_pure _

theorem ends_ofExcept (x : Except QueryError α) : Ends (ofExcept x) := by
  cases x
  · intro s; nofun
  · exact ends_pure _

theorem ends_lit : ∀ cs : List Char, Ends (lit cs)
  | [] => ends_pure ()
  | c :: cs => (ends_char c).bind fun _ => ends_lit cs

theorem Ends.endsBelow (hp : Ends p) (k : Nat) : EndsBelow p k := fun s _ => hp s

/-! ### Parsers with fuel -/

theorem endsBelow_zero (p : Parser α) : EndsBelow p 0 := fun _ h => absurd h (Nat.not_lt_zero _)

theorem EndsBelow.mono {j k : Nat} (hp : EndsBelow p k) (h : j ≤ k) : EndsBelow p j :=
  fun s hs => hp s (hs.trans_le h)

theorem EndsBelow.bind {k : Nat} (hp : EndsBelow p k) (hk : Keeps p)
    (hf : ∀ a, EndsBelow (f a) k) : EndsBelow (p >>= f) k := fun s hs =>
  Outcome.bind_ne_exhausted (hp s hs) fun a s' h => hf a s' ((hk s a s' h).trans_lt hs)

/-- After a part that reads a character, the rest sees an input one character shorter. -/
theorem EndsBelow.bind_consumes {k : Nat} (hp : EndsBelow p k) (hc : Consumes p)
    (hf : ∀ a, EndsBelow (f a) (k - 1)) : EndsBelow (p >>= f) k := fun s hs =>
  Outcome.bind_ne_exhausted (hp s hs) fun a s' h => hf a s' (by have := hc s a s' h; omega)

theorem EndsBelow.bind_ends {k : Nat} (hp : EndsBelow p k) (hf : ∀ a, Ends (f a)) :
    EndsBelow (p >>= f) k := fun s hs =>
  Outcome.bind_ne_exhausted (hp s hs) fun a s' _ => hf a s'

theorem EndsBelow.orElse {k : Nat} (hp : EndsBelow p k) (hq : EndsBelow q k) :
    EndsBelow (p <|> q) k := fun s hs => Outcome.orElse_ne_exhausted (hp s hs) (hq s hs)

theorem EndsBelow.map {k : Nat} (g : α → β) (hp : EndsBelow p k) : EndsBelow (g <$> p) k :=
  hp.bind_ends fun _ => ends_pure _

theorem EndsBelow.preskip {k : Nat} (hp : EndsBelow p k) : EndsBelow (preskip p) k := fun _ hs =>
  hp _ ((List.dropWhile_suffix isSpace).length_le.trans_lt hs)

/-- `p % sep` with fuel `n` ends on an input shorter than `k ≤ n`: each element reads a
character and takes one unit. -/
theorem EndsBelow.sepBy {sep : Parser β} (hsep : Ends sep) (hks : Keeps sep) (hc : Consumes p) :
    ∀ {k n : Nat}, EndsBelow p k → k ≤ n → EndsBelow (Parser.sepBy p sep n) k
  | 0, _, _, _ => endsBelow_zero _
  | _ + 1, 0, _, h => absurd h (Nat.not_succ_le_zero _)
  | k + 1, _ + 1, hp, h =>
    hp.bind_consumes hc fun _ =>
      (((hsep.endsBelow k).bind hks fun _ => EndsBelow.sepBy hsep hks hc (hp.mono k.le_succ)
        (Nat.le_of_succ_le_succ h)).orElse ((ends_pure _).endsBelow k)).bind_ends
        fun _ => ends_pure _

theorem Consumes.token (skipper : Bool) (hp : Consumes p) :
    Consumes (QueryParser.token skipper p) := by
  cases skipper
  exacts [hp, hp.preskip]

theorem Keeps.token (skipper : Bool) (hp : Keeps p) : Keeps (QueryParser.token skipper p) := by
  cases skipper
  exacts [hp, hp.preskip]

theorem Ends.token (skipper : Bool) (hp : Ends p) : Ends (QueryParser.token skipper p) := by
  cases skipper
  exacts [hp, hp.preskip]

theorem EndsBelow.token {k : Nat} (skipper : Bool) (hp : EndsBelow p k) :
    EndsBelow (QueryParser.token skipper p) k := by
  cases skipper
  exacts [hp, hp.preskip]

end Parser

namespace QueryParser

open Parser

variable {registry : PrefixRegistry}

/-! ### The term rules read a character -/

theorem consumes_identifier (first : Char → Bool) : Consumes (identifier first) :=
  (consumes_satisfy first).bind fun _ => (keeps_manyChars _).bind fun _ => keeps_pure _

theorem consumes_quoted (q : Char) : Consumes (quoted q) :=
  (consumes_char q).bind fun _ => (consumes_many1Chars _).keeps.bind fun _ =>
    (consumes_char q).keeps.bind fun _ => keeps_pure _

theorem consumes_atomRaw : Consumes (atomRaw registry) :=
  (consumes_quoted _).orElse <|
    ((consumes_identifier _).bind fun _ => (consumes_char _).keeps.bind fun _ =>
      ((consumes_quoted _).orElse (consumes_identifier _)).keeps.bind fun _ =>
        keeps_ofExcept _).orElse (consumes_identifier _)

/-- A number reads a character (`double_length`). -/
theorem consumes_double : Consumes double := fun _ _ _ h => double_length h

theorem consumes_constant : Consumes (constant registry) :=
  (consumes_atomRaw.map _).orElse <| ((consumes_quoted _).map _).orElse (consumes_double.map _)

theorem consumes_option : Consumes (option registry) :=
  (consumes_atomRaw.map _ |>.bind fun _ => (consumes_char _).keeps.bind fun _ =>
    consumes_constant.keeps.bind fun _ => keeps_pure _).orElse consumes_constant

theorem consumes_bracketList {element : Parser Term} (he : Keeps element) (n : Nat) :
    Consumes (bracketList element n) :=
  (consumes_char _).bind fun _ => ((he.sepBy (consumes_char _).keeps) n).bind fun _ =>
    (consumes_char _).keeps.bind fun _ => keeps_pure _

theorem consumes_functorArguments (skipper : Bool) {argument : Parser Term} (ha : Keeps argument)
    (n : Nat) : Consumes (functorArguments registry skipper argument n) :=
  (consumes_atomRaw.token skipper).bind fun _ => ((consumes_char _).token skipper).keeps.bind
    fun _ => ((ha.token skipper).sepBy ((consumes_char _).token skipper).keeps n).bind fun _ =>
      ((consumes_char _).token skipper).keeps.bind fun _ => keeps_pure _

theorem consumes_argument : ∀ n, Consumes (argument registry n)
  | 0 => fun _ _ _ h => nomatch h
  | n + 1 =>
    ((consumes_functorArguments false (consumes_argument n).keeps n).map _).orElse <|
      ((consumes_identifier _).map _).orElse <| consumes_constant.orElse <|
        consumes_bracketList consumes_constant.keeps n

theorem consumes_predicate (n : Nat) : Consumes (predicate registry n) :=
  ((consumes_functorArguments true (consumes_argument n).keeps n).map _).orElse
    ((consumes_atomRaw.preskip).map _)

/-! ### The term rules end -/

theorem ends_identifier (first : Char → Bool) : Ends (identifier first) :=
  (ends_satisfy first).bind fun _ => (ends_manyChars _).bind fun _ => ends_pure _

theorem ends_quoted (q : Char) : Ends (quoted q) :=
  (ends_char q).bind fun _ => (ends_many1Chars _).bind fun _ => (ends_char q).bind fun _ =>
    ends_pure _

theorem ends_atomRaw : Ends (atomRaw registry) :=
  (ends_quoted _).orElse <| ((ends_identifier _).bind fun _ => (ends_char _).bind fun _ =>
    ((ends_quoted _).orElse (ends_identifier _)).bind fun _ => ends_ofExcept _).orElse
    (ends_identifier _)

theorem ends_double : Ends double := double_ne_exhausted

theorem ends_constant : Ends (constant registry) :=
  (ends_atomRaw.map _).orElse <| ((ends_quoted _).map _).orElse (ends_double.map _)

theorem ends_option : Ends (option registry) :=
  (ends_atomRaw.map _ |>.bind fun _ => (ends_char _).bind fun _ => ends_constant.bind fun _ =>
    ends_pure _).orElse ends_constant

/-- A bracketed list with fuel `n` ends on an input of at most `n` characters. -/
theorem endsBelow_bracketList {element : Parser Term} {n : Nat} (he : EndsBelow element n)
    (hc : Consumes element) : EndsBelow (bracketList element n) (n + 1) :=
  ((ends_char _).endsBelow _).bind_consumes (consumes_char _) fun _ =>
    (EndsBelow.sepBy (ends_char _) (consumes_char _).keeps hc he (by omega)).bind_ends fun _ =>
      (ends_char _).bind fun _ => ends_pure _

theorem endsBelow_functorArguments (skipper : Bool) {argument : Parser Term} {n : Nat}
    (ha : EndsBelow argument n) (hc : Consumes argument) :
    EndsBelow (functorArguments registry skipper argument n) (n + 2) :=
  ((ends_atomRaw.token skipper).endsBelow _).bind_consumes (consumes_atomRaw.token skipper)
    fun _ => (((ends_char _).token skipper).endsBelow _).bind_consumes
      ((consumes_char _).token skipper) fun _ =>
      (EndsBelow.sepBy ((ends_char _).token skipper) ((consumes_char _).token skipper).keeps
        (hc.token skipper) (ha.token skipper) (by omega)).bind_ends fun _ =>
        ((ends_char _).token skipper).bind fun _ => ends_pure _

/-- `argument` with fuel `n` ends on an input shorter than `n`. -/
theorem endsBelow_argument : ∀ n, EndsBelow (argument registry n) n
  | 0 => endsBelow_zero _
  | n + 1 =>
    (((endsBelow_functorArguments false (endsBelow_argument n) (consumes_argument n)).map
      _).mono (Nat.le_succ _)).orElse <|
      (((ends_identifier _).map _).endsBelow _).orElse <| (ends_constant.endsBelow _).orElse <|
        endsBelow_bracketList (ends_constant.endsBelow _) consumes_constant

theorem endsBelow_predicate (n : Nat) : EndsBelow (predicate registry n) (n + 2) :=
  ((endsBelow_functorArguments true (endsBelow_argument n) (consumes_argument n)).map _).orElse
    ((ends_atomRaw.preskip.map _).endsBelow _)

/-! ### The formula rules -/

/-- The nested calls a formula rule can make before it reads a character, plus one. -/
def callDepth : FormulaRule → Nat
  | .formula => 7
  | .implication => 6
  | .disjunction => 5
  | .conjunction => 4
  | .unary | .brackets => 3
  | .negation | .modalFormula => 2
  | .belief | .knowledge | .oncePast | .alwaysPast => 1

section Connective

variable {β : Type} {lower self brackets : Parser Formula} {sep : Parser β}
  {combine : Formula → Formula → Formula}

theorem consumes_connective (hl : Consumes lower) (hs : Keeps self) (hb : Consumes brackets)
    (hsep : Keeps sep) : Consumes (connective lower self brackets sep combine) :=
  ((hl.orElse hb).bind fun _ => hsep.bind fun _ => (hs.orElse hb.keeps).bind fun _ =>
    keeps_pure _).orElse hl

theorem endsBelow_connective {k : Nat} (hl : EndsBelow lower k) (hs : EndsBelow self (k - 1))
    (hb : EndsBelow brackets k) (hcl : Consumes lower) (hcb : Consumes brackets) (hsep : Ends sep)
    (hks : Keeps sep) : EndsBelow (connective lower self brackets sep combine) k :=
  ((hl.orElse hb).bind_consumes (hcl.orElse hcb) fun _ => (hsep.endsBelow _).bind hks fun _ =>
    (hs.orElse (hb.mono (Nat.sub_le k 1))).bind_ends fun _ => ends_pure _).orElse hl

end Connective

theorem consumes_modal (symbol : Char) (create : Term → Except QueryError ModalOperator)
    {body : Parser Formula} (hb : Keeps body) (n : Nat) :
    Consumes (modal registry symbol create body n) :=
  (consumes_char _).preskip.bind fun _ =>
    ((consumes_bracketList consumes_option.keeps n).preskip.keeps.orElse
      (keeps_pure _).preskip).bind fun _ => hb.bind fun _ => (keeps_ofExcept _).bind fun _ =>
        keeps_pure _

theorem endsBelow_modal (symbol : Char) (create : Term → Except QueryError ModalOperator)
    {body : Parser Formula} {n k : Nat} (hb : EndsBelow body (k - 1)) (hk : k ≤ n + 2) :
    EndsBelow (modal registry symbol create body n) k :=
  ((ends_char _).preskip.endsBelow _).bind_consumes (consumes_char _).preskip fun _ =>
    ((endsBelow_bracketList (ends_option.endsBelow n) consumes_option).preskip.mono
      (by omega) |>.orElse ((ends_pure _).preskip.endsBelow _)).bind
      ((consumes_bracketList consumes_option.keeps n).preskip.keeps.orElse (keeps_pure _).preskip)
      fun _ => hb.bind_ends fun _ => (ends_ofExcept _).bind fun _ => ends_pure _

/-- Every formula rule reads a character, whatever rules it is written with, if they do. -/
theorem formulaStep_consumes {rule : FormulaRule → Parser Formula} (h : ∀ r, Consumes (rule r))
    (n : Nat) : ∀ r, Consumes (formulaStep registry rule n r)
  | .formula => (h _).orElse (h _)
  | .implication => consumes_connective (h _) (h _).keeps (h _) (keeps_lit _).preskip
  | .disjunction | .conjunction => consumes_connective (h _) (h _).keeps (h _)
      ((consumes_char _).preskip.keeps.orElse (consumes_char _).preskip.keeps)
  | .unary => (h _).orElse <| (h _).orElse <| (consumes_predicate n).map _
  | .brackets => (consumes_char _).preskip.bind fun _ => (h _).keeps.bind fun _ =>
      (consumes_char _).preskip.keeps.bind fun _ => keeps_pure _
  | .negation => (consumes_char _).preskip.bind fun _ => ((h _).keeps.orElse (h _).keeps).bind
      fun _ => keeps_pure _
  | .modalFormula => (h _).orElse <| (h _).orElse <| (h _).orElse (h _)
  | .belief | .knowledge | .oncePast | .alwaysPast =>
    consumes_modal _ _ ((h _).keeps.orElse (h _).keeps) n

/-- A match of a formula rule reads a character. -/
theorem consumes_formulaRule : ∀ n r, Consumes (formulaRule registry n r)
  | 0, _ => fun _ _ _ h => nomatch h
  | n + 1, r => formulaStep_consumes (consumes_formulaRule n) n r

theorem one_le_callDepth (r : FormulaRule) : 1 ≤ callDepth r := by
  cases r <;> decide

/-- Every formula rule with fuel `n + 1` ends on an input shorter than `k` when `8k` and its call
depth fit in the fuel, if the rules it calls do with fuel `n`. -/
theorem formulaStep_endsBelow {rule : FormulaRule → Parser Formula} {n : Nat}
    (hc : ∀ r, Consumes (rule r))
    (h : ∀ r k, 8 * k + callDepth r ≤ n + 8 → EndsBelow (rule r) k) :
    ∀ r k, 8 * k + callDepth r ≤ n + 9 → EndsBelow (formulaStep registry rule n r) k := by
  intro r k hk
  -- a rule called on the same input is shallower; one called after a character may be deeper
  have same : ∀ r', callDepth r' < callDepth r → EndsBelow (rule r') k := fun r' hr =>
    h r' k (by omega)
  have next : ∀ r', callDepth r' ≤ callDepth r + 7 → EndsBelow (rule r') (k - 1) := fun r' hr => by
    rcases Nat.eq_zero_or_pos k with rfl | hk0
    · exact endsBelow_zero _
    · exact h r' (k - 1) (by omega)
  have hkn : k ≤ n + 2 := by have := one_le_callDepth r; omega
  have hsep : ∀ c d, Ends (preskip (char c) <|> preskip (char d)) := fun _ _ =>
    (ends_char _).preskip.orElse (ends_char _).preskip
  have hks : ∀ c d, Keeps (preskip (char c) <|> preskip (char d)) := fun _ _ =>
    (consumes_char _).preskip.keeps.orElse (consumes_char _).preskip.keeps
  cases r with
  | formula => exact (same _ (by decide)).orElse (same _ (by decide))
  | implication =>
    exact endsBelow_connective (same _ (by decide)) (next _ (by decide)) (same _ (by decide))
      (hc _) (hc _) (ends_lit _).preskip (keeps_lit _).preskip
  | disjunction | conjunction =>
    exact endsBelow_connective (same _ (by decide)) (next _ (by decide)) (same _ (by decide))
      (hc _) (hc _) (hsep _ _) (hks _ _)
  | unary =>
    exact (same _ (by decide)).orElse <| (same _ (by decide)).orElse <|
      ((endsBelow_predicate n).map _).mono hkn
  | brackets =>
    exact ((ends_char _).preskip.endsBelow _).bind_consumes (consumes_char _).preskip fun _ =>
      (next _ (by decide)).bind_ends fun _ => (ends_char _).preskip.bind fun _ => ends_pure _
  | negation =>
    exact ((ends_char _).preskip.endsBelow _).bind_consumes (consumes_char _).preskip fun _ =>
      ((next _ (by decide)).orElse (next _ (by decide))).bind_ends fun _ => ends_pure _
  | modalFormula =>
    exact (same _ (by decide)).orElse <| (same _ (by decide)).orElse <|
      (same _ (by decide)).orElse (same _ (by decide))
  | belief | knowledge | oncePast | alwaysPast =>
    exact endsBelow_modal _ _ ((next _ (by decide)).orElse (next _ (by decide))) hkn

/-- A formula rule with fuel `n` ends on an input shorter than `k` when `8k` and its call depth fit
in `n + 8`. -/
theorem formulaRule_endsBelow :
    ∀ n r k, 8 * k + callDepth r ≤ n + 8 → EndsBelow (formulaRule registry n r) k
  | 0, r, k, hk => by
    obtain rfl : k = 0 := by have := one_le_callDepth r; omega
    exact endsBelow_zero _
  | n + 1, r, k, hk =>
    formulaStep_endsBelow (consumes_formulaRule n) (formulaRule_endsBelow n) r k hk

/-! ### The entry points -/

/-- `parse_` gives a result when its rule does not run out of fuel on the query. -/
theorem parse__isSome {α : Type} {rule : Nat → Parser α} {queryString : String}
    (h : rule (fuelFor queryString) queryString.toList ≠ .exhausted) :
    (parse_ rule queryString).isSome := by
  unfold parse_
  split <;> simp_all

/-- `QueryParser::parse`, `parsePredicate`, `parseConstant` and `parseRawAtom` return a result or
throw `QueryError` on every query string: the fuel the model gives them is never used up. -/
theorem parse_ends (registry : PrefixRegistry) (queryString : String) :
    (parse registry queryString).isSome ∧ (parsePredicate registry queryString).isSome ∧
      (parseConstant registry queryString).isSome ∧
      (parseRawAtom registry queryString).isSome := by
  have hlen : queryString.toList.length < queryString.length + 1 := Nat.lt_succ_self _
  refine ⟨parse__isSome ?_, parse__isSome ?_, parse__isSome (ends_constant.preskip _),
    parse__isSome (ends_atomRaw.preskip _)⟩
  · exact formulaRule_endsBelow _ .formula _ (by simp only [fuelFor, callDepth]; omega) _ hlen
  · exact (endsBelow_predicate _).mono (by simp only [fuelFor]; omega) _ hlen

end QueryParser

end Knowrob
