import Knowrob.Queries.QueryParser

/-!
# What the rules read

Lemmas of the form "on the text of `x` followed by `rest`, the rule returns `x` and leaves `rest`",
for the lexemes, the `%` lists and the term rules, and the lemmas that say how a binary formula
rule (`connective`) goes on or stops after an operand. The round trip of formulas and the reading
of modal options are assembled from them.

The texts are written without spaces, so the skipping before a token never moves
(`preskip_cons`).
-/

namespace Knowrob

open Parser

namespace QueryParser

variable {α β γ : Type}

/-- Texts joined by a separator character. -/
def joinWith (c : Char) : List (List Char) → List Char
  | [] => []
  | [x] => x
  | x :: y :: xs => x ++ c :: joinWith c (y :: xs)

@[simp] theorem joinWith_singleton (c : Char) (x : List Char) : joinWith c [x] = x := rfl

theorem joinWith_cons_cons (c : Char) (x y : List Char) (xs : List (List Char)) :
    joinWith c (x :: y :: xs) = x ++ c :: joinWith c (y :: xs) := rfl

/-- An identifier: a first character satisfying `first`, then identifier characters. -/
def isIdent (first : Char → Bool) : List Char → Bool
  | [] => false
  | c :: cs => first c && cs.all isIdentChar

/-- What may follow an identifier without extending it. -/
def EndsIdent (rest : List Char) : Prop := ∀ c ∈ rest.head?, isIdentChar c = false

/-! ### Skipping and character runs -/

@[simp] theorem preskip_cons (p : Parser α) {c : Char} (hc : isSpace c = false) (s : List Char) :
    preskip p (c :: s) = p (c :: s) := by
  simp [preskip, List.dropWhile_cons_of_neg, hc]

@[simp] theorem preskip_nil (p : Parser α) : preskip p [] = p [] := rfl

theorem preskip_of_head {p : Parser α} {s : List Char} (h : ∀ c ∈ s.head?, isSpace c = false) :
    preskip p s = p s := by
  obtain _ | ⟨c, s⟩ := s
  · rfl
  · exact preskip_cons p (h c rfl) s

@[simp] theorem string_mk_data (s : String) : String.mk s.data = s := rfl

theorem manyChars_append {p : Char → Bool} {cs rest : List Char} (hcs : ∀ c ∈ cs, p c)
    (hrest : ∀ c ∈ rest.head?, p c = false) : manyChars p (cs ++ rest) = .ok cs rest := by
  simp only [manyChars_apply, List.takeWhile_append_of_pos hcs, List.dropWhile_append_of_pos hcs]
  rcases rest with _ | ⟨d, rest⟩
  · simp
  · have hd : p d = false := hrest d rfl
    simp [List.takeWhile_cons_of_neg, List.dropWhile_cons_of_neg, hd]

theorem identifier_append {first : Char → Bool} {cs rest : List Char} (hcs : isIdent first cs)
    (hrest : EndsIdent rest) : identifier first (cs ++ rest) = .ok (String.mk cs) rest := by
  obtain _ | ⟨c, cs⟩ := cs
  · simp [isIdent] at hcs
  · simp only [isIdent, Bool.and_eq_true, List.all_eq_true] at hcs
    simp [identifier, hcs.1, -manyChars_apply, manyChars_append hcs.2 hrest]

theorem identifier_fail {first : Char → Bool} {c : Char} (hc : first c = false) (s : List Char) :
    identifier first (c :: s) = .fail := by
  simp [identifier, hc]

/-! ### Atoms and variables -/

theorem char_fail {c : Char} : ∀ {s : List Char}, (∀ d ∈ s.head?, d ≠ c) → char c s = .fail
  | [], _ => rfl
  | d :: s, h => char_cons_of_ne (h d rfl) s

theorem quoted_fail {q c : Char} (h : c ≠ q) (s : List Char) : quoted q (c :: s) = .fail := by
  simp [quoted, char_cons_of_ne h]

theorem isIdent_cons {first : Char → Bool} {c : Char} {cs : List Char} :
    isIdent first (c :: cs) = (first c && cs.all isIdentChar) := rfl

theorem isIdent_alpha {first : Char → Bool} (hfirst : ∀ c, first c → c.isAlpha) :
    ∀ {cs : List Char}, isIdent first cs → isIdent Char.isAlpha cs
  | c :: cs, h => by
    simp only [isIdent_cons, Bool.and_eq_true] at h ⊢
    exact ⟨hfirst c h.1, h.2⟩

theorem isAlpha_of_isLower {c : Char} (h : c.isLower) : c.isAlpha := by simp [Char.isAlpha, h]

theorem isAlpha_of_isUpper {c : Char} (h : c.isUpper) : c.isAlpha := by simp [Char.isAlpha, h]

theorem isLower_eq_false_of_isUpper {c : Char} (h : c.isUpper) : c.isLower = false := by
  simp only [Char.isUpper, Char.isLower, Bool.and_eq_true, decide_eq_true_eq, ge_iff_le,
    UInt32.le_def, BitVec.le_def, Bool.and_eq_false_iff, decide_eq_false_iff_not, not_le,
    UInt32.toBitVec_ofNat, BitVec.toNat_ofNat] at h ⊢
  omega

theorem ne_quote_of_isAlpha {c : Char} (h : c.isAlpha) : c ≠ '\'' := by
  rintro rfl
  exact absurd h (by decide)

variable {registry : PrefixRegistry}

/-- An identifier not followed by `:` is not an IRI. -/
theorem iri_fail_of_ident {cs rest : List Char} (hcs : isIdent Char.isAlpha cs)
    (hrest : EndsIdent rest) (hcolon : ∀ d ∈ rest.head?, d ≠ ':') : iri registry (cs ++ rest) = .fail := by
  simp [iri, iriNs, identifier_append hcs hrest, char_fail hcolon]

theorem singleQuotes_fail_of_ident {first : Char → Bool} (hfirst : ∀ c, first c → c.isAlpha)
    {cs rest : List Char} (hcs : isIdent first cs) : singleQuotes (cs ++ rest) = .fail := by
  obtain _ | ⟨c, cs⟩ := cs
  · simp [isIdent] at hcs
  · simp only [isIdent_cons, Bool.and_eq_true] at hcs
    exact quoted_fail (ne_quote_of_isAlpha (hfirst c hcs.1)) _

theorem atomRaw_lower {cs rest : List Char} (hcs : isIdent Char.isLower cs) (hrest : EndsIdent rest)
    (hcolon : ∀ d ∈ rest.head?, d ≠ ':') : atomRaw registry (cs ++ rest) = .ok (String.mk cs) rest := by
  simp [atomRaw, singleQuotes_fail_of_ident (fun _ => isAlpha_of_isLower) hcs,
    iri_fail_of_ident (isIdent_alpha (fun _ => isAlpha_of_isLower) hcs) hrest hcolon, lowerPrefix,
    identifier_append hcs hrest]

theorem lowerPrefix_fail_of_upper {cs rest : List Char} (hcs : isIdent Char.isUpper cs) :
    lowerPrefix (cs ++ rest) = .fail := by
  obtain _ | ⟨c, cs⟩ := cs
  · simp [isIdent] at hcs
  · simp only [isIdent_cons, Bool.and_eq_true] at hcs
    exact identifier_fail (isLower_eq_false_of_isUpper hcs.1) _

theorem atomRaw_upper_fail {cs rest : List Char} (hcs : isIdent Char.isUpper cs) (hrest : EndsIdent rest)
    (hcolon : ∀ d ∈ rest.head?, d ≠ ':') : atomRaw registry (cs ++ rest) = .fail := by
  simp [atomRaw, singleQuotes_fail_of_ident (fun _ => isAlpha_of_isUpper) hcs,
    iri_fail_of_ident (isIdent_alpha (fun _ => isAlpha_of_isUpper) hcs) hrest hcolon,
    lowerPrefix_fail_of_upper hcs]

/-- A text that starts with neither a quote nor a letter is no atom. -/
theorem atomRaw_fail_of_head {c : Char} (hq : c ≠ '\'') (ha : c.isAlpha = false) (s : List Char) :
    atomRaw registry (c :: s) = .fail := by
  have hl : c.isLower = false := by simp_all [Char.isAlpha]
  simp [atomRaw, quoted_fail hq, singleQuotes, iri, iriNs, identifier_fail ha, lowerPrefix,
    identifier_fail hl]

theorem variable_upper {cs rest : List Char} (hcs : isIdent Char.isUpper cs) (hrest : EndsIdent rest) :
    «variable» (cs ++ rest) = .ok (.variable (String.mk cs)) rest := by
  simp [«variable», upperPrefix, identifier_append hcs hrest]

/-! ### Lists -/

theorem sepBy_singleton {p : Parser α} {sep : Parser β} {s r : List Char} {a : α} (n : Nat)
    (hp : p s = .ok a r) (hsep : sep r = .fail) : sepBy p sep (n + 1) s = .ok [a] r := by
  simp [sepBy, hp, hsep]

theorem sepBy_cons {p : Parser α} {sep : Parser β} {s r r' t : List Char} {a : α} {b : β}
    {as : List α} {n : Nat} (hp : p s = .ok a r) (hsep : sep r = .ok b r')
    (htail : sepBy p sep n r' = .ok as t) : sepBy p sep (n + 1) s = .ok (a :: as) t := by
  simp [sepBy, hp, hsep, htail]

/-- `p % sep` reads the texts of `xs` written between separators `c`, each element read by `p`
whether a separator or the text after the list follows it. -/
theorem sepBy_joinWith {p : Parser α} {sep : Parser β} {c : Char} {r : γ → List Char} {f : γ → α}
    {rest : List Char} (hsep : ∀ u, ∃ b, sep (c :: u) = .ok b u) (hend : sep rest = .fail) :
    ∀ (xs : List γ), (∀ x ∈ xs, ∀ u, (u = rest ∨ ∃ u', u = c :: u') → p (r x ++ u) = .ok (f x) u) →
      xs ≠ [] → ∀ n, xs.length ≤ n →
        sepBy p sep n (joinWith c (xs.map r) ++ rest) = .ok (xs.map f) rest
  | [], _, h, _, _ => absurd rfl h
  | [x], hp, _, n + 1, _ => sepBy_singleton n (hp x (by simp) rest (.inl rfl)) hend
  | x :: y :: xs, hp, _, n + 1, hn => by
    obtain ⟨b, hb⟩ := hsep (joinWith c (r y :: xs.map r) ++ rest)
    have htail := sepBy_joinWith hsep hend (y :: xs) (fun z hz => hp z (by simp [hz]))
      (List.cons_ne_nil _ _) n (by simpa using hn)
    simp only [List.map_cons] at htail ⊢
    rw [joinWith_cons_cons, List.append_assoc, List.cons_append]
    exact sepBy_cons (hp x (by simp) _ (.inr ⟨_, rfl⟩)) hb htail

theorem bracketList_joinWith {element : Parser Term} {r : γ → List Char} {f : γ → Term}
    {rest : List Char} (xs : List γ)
    (hp : ∀ x ∈ xs, ∀ u, (u = ']' :: rest ∨ ∃ u', u = ',' :: u') → element (r x ++ u) = .ok (f x) u)
    (hxs : xs ≠ []) {n : Nat} (hn : xs.length ≤ n) :
    bracketList element n ('[' :: joinWith ',' (xs.map r) ++ ']' :: rest) = .ok (.list (xs.map f)) rest := by
  have : sepBy element (char ',') n (joinWith ',' (xs.map r) ++ ']' :: rest) =
      .ok (xs.map f) (']' :: rest) :=
    sepBy_joinWith (fun u => ⟨',', char_cons_self _ _⟩) (char_cons_of_ne (by decide) _) xs hp hxs n hn
  simp [bracketList, this]

/-! ### Formula rules -/

section Connective

variable {lower self brackets : Parser Formula} {sep : Parser β}
  {combine : Formula → Formula → Formula} {s r r' t : List Char} {φ ψ : Formula}

/-- A connective reads an operand, its separator and the rest of its chain. -/
theorem connective_of_sep {b : β} (h : (lower <|> brackets) s = .ok φ r) (hsep : sep r = .ok b r')
    (hself : (self <|> brackets) r' = .ok ψ t) :
    connective lower self brackets sep combine s = .ok (combine φ ψ) t := by
  simp only [orElse_apply] at h hself
  simp [connective, h, hsep, hself]

/-- A connective whose separator does not follow the operand gives the operand of the rule one
level down. -/
theorem connective_of_lower (h : lower s = .ok φ r) (hsep : sep r = .fail) :
    connective lower self brackets sep combine s = .ok φ r := by
  simp [connective, h, hsep]

/-- A bracketed operand that no separator follows is not read by a connective. -/
theorem connective_fail (hl : lower s = .fail) (hb : brackets s = .ok φ r) (hsep : sep r = .fail) :
    connective lower self brackets sep combine s = .fail := by
  simp [connective, hl, hb, hsep]

end Connective

variable {registry : PrefixRegistry}

theorem modal_fail_of_head (symbol : Char) (create : Term → Except QueryError ModalOperator)
    (body : Parser Formula) (n : Nat) {c : Char} (hc : c ≠ symbol) (hsp : isSpace c = false)
    (s : List Char) : modal registry symbol create body n (c :: s) = .fail := by
  simp [modal, hsp, char_cons_of_ne hc]

theorem modalFormula_fail {c : Char} (hsp : isSpace c = false) (hB : c ≠ 'B') (hK : c ≠ 'K')
    (hP : c ≠ 'P') (hH : c ≠ 'H') (m : Nat) (s : List Char) :
    formulaRule registry (m + 2) .modalFormula (c :: s) = .fail := by
  simp [formulaRule, formulaStep, modal_fail_of_head, hsp, hB, hK, hP, hH]

/-- No unary formula starts with a character other than a letter, a quote or `~`. -/
theorem unary_fail_of_head {c : Char} (hsp : isSpace c = false) (hq : c ≠ '\'')
    (ha : c.isAlpha = false) (ht : c ≠ '~') (m : Nat) (s : List Char) :
    formulaRule registry (m + 3) .unary (c :: s) = .fail := by
  have hne : ∀ d : Char, d.isAlpha → c ≠ d := by rintro d hd rfl; simp_all
  simp [formulaRule, formulaStep, modal_fail_of_head, hne 'B' rfl, hne 'K' rfl, hne 'P' rfl,
    hne 'H' rfl, hsp, char_cons_of_ne ht, predicate, predicateWithArgs, predicateNullary,
    functorArguments, atomRaw_fail_of_head hq ha]

end QueryParser

end Knowrob
