import Knowrob.Queries.Reading

/-!
# Number literals

The literals `qi::double_` reads whole, each with the double it gives, after an optional sign:

* a decimal literal: integer digits, an optional `.` with fraction digits, some digit on one side
  of the dot, and an optional exponent whose value an `int` holds. Its double is what `real_impl`
  computes from these parts (`decimalRead`: the accumulator, the digits left out of it, the
  fraction digits in it, and `scaleParts`), and the literal is one only where that succeeds, that
  is, where `scale` accepts the power of ten;
* `nan` with an optional `(...)`, and `inf` with an optional `inity`, each letter in either case.

`double_reads`: on the text of a literal, followed by a character that cannot continue it,
`double` returns the literal's double. In a constant, a literal without a sign that starts with a
lower-case letter (`nan`, `inf`) is an atom, which `constant` tries first; `ConstantNumber` is a
literal that `constant` reads as a number (`constant_number`).
-/

namespace Knowrob

open Parser Binary64

namespace QueryParser

/-- The text of an optional sign: `some true` is `-`, `some false` is `+`. -/
def signText : Option Bool → List Char
  | none => []
  | some true => ['-']
  | some false => ['+']

def isMinus : Option Bool → Bool
  | some true => true
  | _ => false

def signValue (s : Option Bool) : ℤ := if isMinus s then -1 else 1

def fractionText : Option (List Char) → List Char
  | none => []
  | some ds => '.' :: ds

/-- The text of an optional exponent: whether its letter is `E`, its sign and its digits. -/
def exponentText : Option (Bool × Option Bool × List Char) → List Char
  | none => []
  | some (upper, s, ds) => (if upper then 'E' else 'e') :: signText s ++ ds

def exponentValue (x : Bool × Option Bool × List Char) : ℤ := signValue x.2.1 * digitsValue x.2.2

/-- The magnitude an `int` of the given sign reaches: `2^31` below zero, `2^31 - 1` above. -/
def intBound (negative : Bool) : Nat := if negative then 2 ^ 31 else 2 ^ 31 - 1

/-- What `real_impl::parse` computes from the parts of a decimal literal: the integer digits go
into the accumulator while they fit, the fraction digits too unless an integer digit was left out,
and `scaleParts` scales the result; nothing where `scale` fails. -/
def decimalRead (intDigits : List Char) (fracDigits : Option (List Char)) (exponent : Option ℤ) :
    Option Binary64 :=
  let acc := (accumulateDigits 0 intDigits).1
  let excess := intDigits.length - (accumulateDigits 0 intDigits).2.1
  match fracDigits with
  | some ds =>
    if excess = 0 then
      scaleParts (accumulateDigits acc ds).1 0 (accumulateDigits acc ds).2.1 exponent
    else scaleParts acc excess 0 exponent
  | none => scaleParts acc excess 0 exponent

/-- A decimal literal that `qi::double_` reads whole. -/
structure DecimalLiteral where
  sign : Option Bool
  intDigits : List Char
  fracDigits : Option (List Char)
  exponent : Option (Bool × Option Bool × List Char)
  intDigits_isDigit : ∀ c ∈ intDigits, c.isDigit
  fracDigits_isDigit : ∀ ds ∈ fracDigits, ∀ c ∈ ds, c.isDigit
  hasDigit : intDigits ++ fracDigits.getD [] ≠ []
  exponent_isDigit : ∀ x ∈ exponent, x.2.2 ≠ [] ∧ ∀ c ∈ x.2.2, c.isDigit
  exponent_fits : ∀ x ∈ exponent, digitsValue x.2.2 ≤ intBound (isMinus x.2.1)
  scales : (decimalRead intDigits fracDigits (exponent.map exponentValue)).isSome

/-- `letters` spell `word`, each letter as in `word` or in upper case. -/
def spells : List Char → List Char → Bool
  | [], [] => true
  | c :: word, d :: letters => (d == c || d == c.toUpper) && spells word letters
  | _, _ => false

/-- A number literal that `qi::double_` reads whole. -/
inductive NumberLiteral where
  | decimal (d : DecimalLiteral)
  /-- `nan`, and a text in parentheses. -/
  | nan (sign : Option Bool) (letters : List Char) (payload : Option (List Char))
      (hletters : spells ['n', 'a', 'n'] letters) (hpayload : ∀ p ∈ payload, ')' ∉ p)
  /-- `inf`, or `infinity`. -/
  | infinity (sign : Option Bool) (letters : List Char) (inity : Option (List Char))
      (hletters : spells ['i', 'n', 'f'] letters)
      (hinity : ∀ l ∈ inity, spells ['i', 'n', 'i', 't', 'y'] l)

namespace NumberLiteral

/-- The sign of a literal. -/
def sign : NumberLiteral → Option Bool
  | decimal d => d.sign
  | nan sign .. | infinity sign .. => sign

/-- The text of a literal after its sign. -/
def unsigned : NumberLiteral → List Char
  | decimal d => d.intDigits ++ (fractionText d.fracDigits ++ exponentText d.exponent)
  | nan _ letters payload _ _ => letters ++ (payload.map fun p => '(' :: (p ++ [')'])).getD []
  | infinity _ letters inity _ _ => letters ++ inity.getD []

def render (n : NumberLiteral) : List Char := signText n.sign ++ n.unsigned

/-- The double a literal gives. -/
def value : NumberLiteral → Binary64
  | decimal d => negate (isMinus d.sign) ((decimalRead d.intDigits d.fracDigits
      (d.exponent.map exponentValue)).get d.scales)
  | nan _ _ _ _ _ => .nan
  | infinity sign _ _ _ _ => .infinity (isMinus sign)

/-- Whether the literal starts with a lower-case letter: `nan` or `inf` without a sign. -/
def startsLower (n : NumberLiteral) : Bool := n.render.head?.any Char.isLower

end NumberLiteral

/-- A number literal that `constant` reads as a number: one that does not start with a lower-case
letter, which `atom`, tried first, would read. -/
structure ConstantNumber where
  literal : NumberLiteral
  not_atom : literal.startsLower = false

/-- What may follow a number literal without continuing it: no identifier character, dot or
parenthesis; and no colon, after which an upper-case `NaN` or `Inf` would be an IRI prefix. -/
def NumberEnds (u : List Char) : Prop :=
  ∀ c ∈ u.head?, isIdentChar c = false ∧ c ≠ '.' ∧ c ≠ '(' ∧ c ≠ ':'

/-! ### The steps of `double` on the parts of a literal -/

theorem extractSign_signText (s : Option Bool) {u : List Char}
    (hu : s = none → ∀ c ∈ u.head?, c ≠ '-' ∧ c ≠ '+') :
    extractSign (signText s ++ u) = (isMinus s, u) := by
  match s, u, hu with
  | none, [], _ => rfl
  | none, c :: u, hu =>
    obtain ⟨hm, hp⟩ := hu rfl c rfl
    simp only [signText, isMinus, List.nil_append]
    unfold extractSign
    split <;> simp_all
  | some true, _, _ => rfl
  | some false, _, _ => rfl

@[simp] theorem accumulateDigits_nil (acc : Nat) : accumulateDigits acc [] = (acc, 0, []) := rfl

theorem accumulateDigits_append {ds tail : List Char} (hds : ∀ c ∈ ds, c.isDigit)
    (htail : ∀ c ∈ tail.head?, c.isDigit = false) (acc : Nat) :
    accumulateDigits acc (ds ++ tail) = ((accumulateDigits acc ds).1,
      (accumulateDigits acc ds).2.1, (accumulateDigits acc ds).2.2 ++ tail) := by
  induction ds generalizing acc with
  | nil =>
    cases tail with
    | nil => rfl
    | cons c t => simp [accumulateDigits, htail c rfl]
  | cons d ds ih =>
    simp only [List.cons_append, accumulateDigits, List.append_eq]
    split_ifs
    · rw [ih (fun c hc => hds c (List.mem_cons_of_mem d hc))]
    · rfl

/-- The digits `accumulateDigits` leaves are the last ones of its input. -/
theorem accumulateDigits_rest (acc : Nat) :
    ∀ s : List Char, (accumulateDigits acc s).2.2 = s.drop (accumulateDigits acc s).2.1
  | [] => rfl
  | c :: s => by
    unfold accumulateDigits
    split_ifs
    · exact accumulateDigits_rest _ s
    · rfl

theorem skipDigits_append {ds tail : List Char} (hds : ∀ c ∈ ds, c.isDigit)
    (htail : ∀ c ∈ tail.head?, c.isDigit = false) : skipDigits (ds ++ tail) = (ds.length, tail) := by
  have h := manyChars_append hds htail
  simp only [manyChars_apply, Outcome.ok.injEq] at h
  simp [skipDigits, h.1, h.2]

/-- The digits `accumulateDigits` leaves are skipped as excess digits. -/
theorem skipDigits_rest {ds tail : List Char} (hds : ∀ c ∈ ds, c.isDigit)
    (htail : ∀ c ∈ tail.head?, c.isDigit = false) (acc : Nat) :
    skipDigits ((accumulateDigits acc ds).2.2 ++ tail) =
      (ds.length - (accumulateDigits acc ds).2.1, tail) := by
  rw [accumulateDigits_rest, skipDigits_append (fun c hc => hds c (List.mem_of_mem_drop hc)) htail,
    List.length_drop]

theorem parseN_append {d : Char} {ds tail : List Char} (hds : ∀ c ∈ d :: ds, c.isDigit)
    (htail : ∀ c ∈ tail.head?, c.isDigit = false) :
    parseN (d :: ds ++ tail) = some ((accumulateDigits 0 (d :: ds)).1,
      (accumulateDigits 0 (d :: ds)).2.2 ++ tail) := by
  rw [List.cons_append, parseN, if_pos (hds d (List.mem_cons_self d ds)), ← List.cons_append,
    accumulateDigits_append hds htail]

theorem parseFracN_append {d : Char} {ds tail : List Char} (hds : ∀ c ∈ d :: ds, c.isDigit)
    (htail : ∀ c ∈ tail.head?, c.isDigit = false) (acc : Nat) :
    parseFracN acc (d :: ds ++ tail) = some ((accumulateDigits acc (d :: ds)).1,
      (accumulateDigits acc (d :: ds)).2.1, tail) := by
  rw [List.cons_append, parseFracN, if_pos (hds d (List.mem_cons_self d ds)), ← List.cons_append,
    accumulateDigits_append hds htail]
  dsimp only
  rw [skipDigits_rest hds htail]

theorem caseless_append : ∀ {word letters : List Char}, spells word letters →
    ∀ s, caseless word (letters ++ s) = some s
  | [], [], _, _ => rfl
  | c :: word, d :: letters, h, s => by
    simp only [spells, Bool.and_eq_true, Bool.or_eq_true, beq_iff_eq] at h
    simp [caseless, h.1, caseless_append h.2]

theorem caseless_cons_fail {c d : Char} (h : d ≠ c ∧ d ≠ c.toUpper) (word s : List Char) :
    caseless (c :: word) (d :: s) = none := by
  simp [caseless, h.1, h.2]

theorem parseExpN_reads (sign : Option Bool) {ds rest : List Char} (hds : ds ≠ [])
    (hdigits : ∀ c ∈ ds, c.isDigit) (hfit : digitsValue ds ≤ intBound (isMinus sign))
    (hrest : ∀ c ∈ rest.head?, c.isDigit = false) :
    parseExpN (signText sign ++ (ds ++ rest)) = some (signValue sign * digitsValue ds, rest) := by
  obtain _ | ⟨d, ds'⟩ := ds
  · exact absurd rfl hds
  have hd := hdigits d (List.mem_cons_self _ _)
  have hsign : extractSign (signText sign ++ (d :: ds' ++ rest)) = (isMinus sign, d :: ds' ++ rest) :=
    extractSign_signText sign fun _ c hc => by
      obtain rfl : c = d := by simpa using hc.symm
      constructor <;> rintro rfl <;> simp at hd
  have hrun := manyChars_append hdigits hrest
  simp only [manyChars_apply, Outcome.ok.injEq] at hrun
  unfold parseExpN
  rw [hsign]
  simp only [hrun.1, hrun.2]
  cases hm : isMinus sign <;> simp_all [intBound, signValue]

/-- The exponent part on the text of an optional exponent and a character that cannot continue
it: `scaleParts` with the exponent's value. -/
theorem exponentPart_reads (negative : Bool) (acc excess frac : Nat)
    (x : Option (Bool × Option Bool × List Char))
    (hx : ∀ x' ∈ x, (x'.2.2 ≠ [] ∧ ∀ c ∈ x'.2.2, c.isDigit) ∧
      digitsValue x'.2.2 ≤ intBound (isMinus x'.2.1))
    {rest : List Char} (hrest : ∀ c ∈ rest.head?, c.isDigit = false ∧ c ≠ 'e' ∧ c ≠ 'E') :
    exponentPart negative acc excess frac (exponentText x ++ rest) =
      ofScale negative (scaleParts acc excess frac (x.map exponentValue)) rest := by
  match x, hx with
  | none, _ =>
    have hexp : parseExp rest = none := by
      obtain _ | ⟨c, rest'⟩ := rest
      · rfl
      · simp [parseExp, (hrest c rfl).2.1, (hrest c rfl).2.2]
    simp [exponentPart, exponentText, hexp]
  | some (upper, s, ds), hx =>
    obtain ⟨⟨hne, hdigits⟩, hfit⟩ := hx _ rfl
    have hexpn := parseExpN_reads s hne hdigits hfit fun c hc => (hrest c hc).1
    cases upper <;>
    simp [exponentPart, exponentText, parseExp, hexpn, exponentValue]

/-! ### Reading a literal -/

/-- On the text of a decimal literal after its sign, and a character that cannot continue it,
`double` computes what `decimalRead` computes from the parts. -/
theorem unsignedPart_decimal (negative : Bool) (d : DecimalLiteral) {rest : List Char}
    (hrest : ∀ c ∈ rest.head?, c.isDigit = false ∧ c ≠ '.' ∧ c ≠ 'e' ∧ c ≠ 'E') :
    unsignedPart negative (d.intDigits ++ (fractionText d.fracDigits ++
      (exponentText d.exponent ++ rest))) =
      ofScale negative (decimalRead d.intDigits d.fracDigits (d.exponent.map exponentValue)) rest := by
  obtain ⟨s, is, f, x, his, hf, hdigit, hx, hfits, -⟩ := d
  dsimp only
  have hexp := fun acc excess frac => exponentPart_reads negative acc excess frac x
    (fun x' hx' => ⟨hx x' hx', hfits x' hx'⟩) fun c hc => ⟨(hrest c hc).1, (hrest c hc).2.2⟩
  -- the text after the fraction starts with the letter of the exponent or with `rest`
  have hexpHead : ∀ c ∈ (exponentText x ++ rest).head?, c.isDigit = false ∧ c ≠ '.' := by
    cases x with
    | none => simpa [exponentText] using fun c hc => ⟨(hrest c hc).1, (hrest c hc).2.1⟩
    | some x => obtain ⟨_ | _, _, _⟩ := x <;> simp [exponentText]
  have hdot : parseDot (exponentText x ++ rest) = none := by
    cases h : exponentText x ++ rest with
    | nil => rfl
    | cons c t => simp [parseDot, (hexpHead c (by simp [h])).2]
  have hnofrac : ∀ acc, parseFracN acc (exponentText x ++ rest) = none := by
    cases h : exponentText x ++ rest with
    | nil => intro; rfl
    | cons c t => simp [parseFracN, (hexpHead c (by simp [h])).1]
  -- a fraction read after integer digits, or after none
  have hfrac : ∀ acc, ∀ fs, f = some fs → (∀ c ∈ fs, c.isDigit) → fs ≠ [] →
      parseFracN acc (fs ++ (exponentText x ++ rest)) = some ((accumulateDigits acc fs).1,
        (accumulateDigits acc fs).2.1, exponentText x ++ rest) := by
    rintro acc (_ | ⟨g, fs⟩) - hfs hne
    · exact absurd rfl hne
    · exact parseFracN_append hfs (fun c hc => (hexpHead c hc).1) acc
  match is, f, hdigit with
  | i :: is, f, _ =>
    have htail : ∀ c ∈ (fractionText f ++ (exponentText x ++ rest)).head?, c.isDigit = false := by
      cases f with
      | none => exact fun c hc => (hexpHead c (by simpa [fractionText] using hc)).1
      | some _ => simp [fractionText]
    rw [unsignedPart, parseN_append his htail]
    simp only [skipDigits_rest his htail, decimalRead]
    cases f with
    | none => simp [fractionPart, fractionText, hdot, hexp]
    | some fs =>
      simp only [fractionPart, fractionText, List.cons_append, parseDot]
      by_cases hex : (i :: is).length - (accumulateDigits 0 (i :: is)).2.1 = 0
      · simp only [hex, ne_eq, not_true_eq_false, if_false, if_true]
        cases fs with
        | nil => simp only [List.nil_append, hnofrac, accumulateDigits_nil, hexp]
        | cons g fs =>
          rw [hfrac _ _ rfl (hf _ rfl) (List.cons_ne_nil _ _)]
          exact hexp _ _ _
      · simp only [hex, ne_eq, not_false_eq_true, if_true, if_false,
          skipDigits_append (hf fs rfl) fun c hc => (hexpHead c hc).1]
        exact hexp _ _ _
  | [], some (g :: fs), _ =>
    -- a leading dot is neither a digit nor the first letter of `nan` or `inf`
    have hdot : ∀ t, unsignedPart negative ('.' :: t) = match parseFracN 0 t with
        | some (acc, frac, rest) => exponentPart negative acc 0 frac rest
        | none => .fail := fun _ => rfl
    simp only [List.nil_append, fractionText, List.cons_append, hdot]
    rw [← List.cons_append, hfrac 0 _ rfl (hf _ rfl) (List.cons_ne_nil _ _)]
    simp [decimalRead, hexp]
  | [], some [], h => exact absurd rfl h
  | [], none, h => exact absurd rfl h

/-! ### `nan` and `inf` -/

theorem spells_cons {c : Char} {word letters : List Char} (h : spells (c :: word) letters) :
    ∃ d t, letters = d :: t ∧ (d = c ∨ d = c.toUpper) ∧ spells word t := by
  obtain _ | ⟨d, t⟩ := letters
  · simp [spells] at h
  · simp only [spells, Bool.and_eq_true, Bool.or_eq_true, beq_iff_eq] at h
    exact ⟨d, t, rfl, h.1, h.2⟩

/-- The letters of a word that has only identifier characters, in either case, are identifier
characters. -/
theorem spells_isIdentChar : ∀ {word letters : List Char},
    (∀ c ∈ word, isIdentChar c ∧ isIdentChar c.toUpper) → spells word letters →
      ∀ d ∈ letters, isIdentChar d
  | [], [], _, _ => by simp
  | c :: word, d :: letters, hw, h => by
    simp only [spells, Bool.and_eq_true, Bool.or_eq_true, beq_iff_eq] at h
    simp only [List.mem_cons, forall_eq_or_imp] at hw ⊢
    exact ⟨by rcases h.1 with rfl | rfl; exacts [hw.1.1, hw.1.2], spells_isIdentChar hw.2 h.2⟩

/-- `nan`, with its text in parentheses where one is written. -/
theorem parseNan_reads {letters : List Char} (hl : spells ['n', 'a', 'n'] letters)
    (payload : Option (List Char)) (hp : ∀ p ∈ payload, ')' ∉ p) {rest : List Char}
    (hrest : ∀ c ∈ rest.head?, c ≠ '(') :
    parseNan (letters ++ ((payload.map fun p => '(' :: (p ++ [')'])).getD [] ++ rest)) =
      some rest := by
  unfold parseNan
  rw [caseless_append hl]
  cases payload with
  | none =>
    split
    · rename_i r h
      obtain rfl : rest = '(' :: r := by simpa using h
      exact absurd rfl (hrest '(' rfl)
    · rfl
  | some p =>
    have hp : ∀ a ∈ p, (a != ')') = true := fun a ha => by
      simp only [bne_iff_ne, ne_eq]; rintro rfl; exact hp p rfl ha
    simp [List.dropWhile_append_of_pos hp]

/-- `inf`, or `infinity` where the rest of the word is written. -/
theorem parseInf_reads {letters : List Char} (hl : spells ['i', 'n', 'f'] letters)
    (inity : Option (List Char)) (hi : ∀ l ∈ inity, spells ['i', 'n', 'i', 't', 'y'] l)
    {rest : List Char} (hrest : ∀ c ∈ rest.head?, c ≠ 'i' ∧ c ≠ 'I') :
    parseInf (letters ++ (inity.getD [] ++ rest)) = some rest := by
  unfold parseInf
  rw [caseless_append hl]
  cases inity with
  | none =>
    obtain _ | ⟨c, t⟩ := rest
    · rfl
    · simp [caseless_cons_fail (c := 'i') (show c ≠ 'i' ∧ c ≠ 'I' from hrest c rfl)]
  | some l => simp [caseless_append (hi l rfl)]

theorem ofScale_get (negative : Bool) {n : Option Binary64} (h : n.isSome) (rest : List Char) :
    ofScale negative n rest = .ok (negate negative (n.get h)) rest := by
  cases n
  · cases h
  · rfl

theorem double_eq_unsignedPart {s : List Char} (hs : s ≠ []) :
    double s = unsignedPart (extractSign s).1 (extractSign s).2 := by
  obtain _ | ⟨c, s⟩ := s
  · exact absurd rfl hs
  · rfl

theorem parseN_fail_of_head {c : Char} (hc : c.isDigit = false) (s : List Char) :
    parseN (c :: s) = none := by
  simp [parseN, hc]

/-! ### Reading a literal -/

theorem NumberEnds.decimal {u : List Char} (h : NumberEnds u) :
    ∀ c ∈ u.head?, c.isDigit = false ∧ c ≠ '.' ∧ c ≠ 'e' ∧ c ≠ 'E' := fun c hc => by
  obtain ⟨hi, hdot, -⟩ := h c hc
  simp only [isIdentChar, Char.isAlphanum, Bool.or_eq_false_iff] at hi
  refine ⟨hi.1.2, hdot, ?_, ?_⟩ <;> rintro rfl <;> simp at hi

/-- A decimal literal after its sign starts with a digit or a dot. -/
theorem DecimalLiteral.head (d : DecimalLiteral) (u : List Char) :
    ∃ c t, d.intDigits ++ (fractionText d.fracDigits ++ u) = c :: t ∧ (c.isDigit ∨ c = '.') := by
  match d.intDigits, d.fracDigits, d.intDigits_isDigit, d.hasDigit with
  | i :: is, _, his, _ => exact ⟨i, _, rfl, .inl (his i (List.mem_cons_self _ _))⟩
  | [], some _, _, _ => exact ⟨'.', _, rfl, .inr rfl⟩
  | [], none, _, h => exact absurd rfl h

/-- After its sign, a literal starts with a digit, a dot, or the first letter of `nan` or `inf`. -/
theorem NumberLiteral.unsigned_head (n : NumberLiteral) :
    ∃ c t, n.unsigned = c :: t ∧ (c.isDigit ∨ c ∈ ['.', 'n', 'N', 'i', 'I']) := by
  cases n with
  | decimal d =>
    obtain ⟨c, t, hct, hc⟩ := d.head (exponentText d.exponent)
    exact ⟨c, t, hct, hc.imp_right fun h => by subst h; decide⟩
  | nan _ _ _ hl _ | infinity _ _ _ hl _ =>
    obtain ⟨l, t, rfl, hl₁, -⟩ := spells_cons hl
    exact ⟨l, _, rfl, .inr (by rcases hl₁ with rfl | rfl <;> decide)⟩

theorem head_ne_sign {c : Char} (hc : c.isDigit ∨ c ∈ ['.', 'n', 'N', 'i', 'I']) :
    c ≠ '-' ∧ c ≠ '+' := by
  constructor <;> rintro rfl <;> revert hc <;> decide

/-- After its sign, `double` reads the rest of a literal, and a character that cannot continue
it, to the literal's double. -/
theorem unsignedPart_reads (n : NumberLiteral) {rest : List Char} (hrest : NumberEnds rest) :
    unsignedPart (isMinus n.sign) (n.unsigned ++ rest) = .ok n.value rest := by
  cases n with
  | decimal d =>
    rw [NumberLiteral.unsigned, List.append_assoc, List.append_assoc,
      unsignedPart_decimal _ d hrest.decimal]
    exact ofScale_get _ d.scales rest
  | nan sign letters payload hl hp =>
    obtain ⟨l, t, rfl, hl₁, -⟩ := spells_cons hl
    have hdigit : l.isDigit = false := by rcases hl₁ with rfl | rfl <;> rfl
    have hnan := parseNan_reads hl payload hp fun c hc => (hrest c hc).2.2.1
    rw [NumberLiteral.unsigned, NumberLiteral.sign, List.append_assoc, unsignedPart,
      List.cons_append, parseN_fail_of_head hdigit, ← List.cons_append, hnan]
    cases isMinus sign <;> rfl
  | infinity sign letters inity hl hi =>
    obtain ⟨l, t, rfl, hl₁, -⟩ := spells_cons hl
    have hdigit : l.isDigit = false := by rcases hl₁ with rfl | rfl <;> rfl
    have hnan : parseNan (l :: (t ++ (inity.getD [] ++ rest))) = none := by
      rcases hl₁ with rfl | rfl <;> rfl
    have hinf := @parseInf_reads _ hl inity hi rest fun c hc => by
      have hc := (hrest c hc).1
      constructor <;> rintro rfl <;> exact absurd hc (by decide)
    rw [NumberLiteral.unsigned, NumberLiteral.sign, NumberLiteral.value, List.append_assoc,
      unsignedPart, List.cons_append, parseN_fail_of_head hdigit, hnan, ← List.cons_append, hinf]
    cases isMinus sign <;> rfl

/-- `double` reads a number literal whole, followed by a character that cannot continue it, and
gives the literal's double. -/
theorem double_reads (n : NumberLiteral) {rest : List Char} (hrest : NumberEnds rest) :
    double (n.render ++ rest) = .ok n.value rest := by
  obtain ⟨c, t, hct, hc⟩ := n.unsigned_head
  have hsign := extractSign_signText n.sign (u := n.unsigned ++ rest) fun _ c' hc' => by
    obtain rfl : c' = c := by simpa [hct] using hc'.symm
    exact head_ne_sign hc
  rw [NumberLiteral.render, List.append_assoc, double_eq_unsignedPart (by simp [hct]), hsign]
  exact unsignedPart_reads n hrest

/-- The double of every literal is a double of IEEE 754. -/
theorem NumberLiteral.value_valid (n : NumberLiteral) : n.value.Valid :=
  double_valid (@double_reads n [] nofun)

/-! ### Numbers as constants -/

variable {registry : PrefixRegistry}

theorem isAlpha_eq_false_of_isDigit {c : Char} (h : c.isDigit) : c.isAlpha = false := by
  simp only [Char.isDigit, Char.isAlpha, Char.isUpper, Char.isLower, Bool.and_eq_true,
    decide_eq_true_eq, UInt32.le_def, BitVec.le_def, UInt32.toBitVec_ofNat, BitVec.toNat_ofNat,
    Bool.or_eq_false_iff, Bool.and_eq_false_imp, decide_eq_false_iff_not, Nat.not_le] at h ⊢
  omega

/-- A word spelled by `letters`, the letters of `word` in either case, whose first letter is not
lower case, followed by `more` identifier characters, is an upper-case identifier. -/
theorem isIdent_upper_spells {c : Char} {word letters more : List Char}
    (hl : spells (c :: word) letters) (hc : c.isLower ∧ c.toUpper.isUpper)
    (hw : ∀ e ∈ c :: word, isIdentChar e ∧ isIdentChar e.toUpper)
    (hmore : ∀ d ∈ more, isIdentChar d) (hlow : ∀ d ∈ letters.head?, d.isLower = false) :
    isIdent Char.isUpper (letters ++ more) := by
  obtain ⟨d, t, rfl, hd, ht⟩ := spells_cons hl
  have ht := spells_isIdentChar (fun c hc => hw c (List.mem_cons_of_mem _ hc)) ht
  have hup : d.isUpper := by
    rcases hd with rfl | rfl
    · simpa [hc.1] using hlow _ rfl
    · exact hc.2
  simp only [List.cons_append, isIdent_cons, hup, Bool.true_and, List.all_eq_true,
    List.mem_append]
  rintro e (he | he)
  exacts [ht e he, hmore e he]

/-- `atom`, tried first, reads no number literal that `constant` reads as a number: its text
starts with a sign, a digit or a dot, or is an upper-case word that no `:` follows. -/
theorem atomRaw_number_fail (n : ConstantNumber) {rest : List Char} (hrest : NumberEnds rest) :
    atomRaw registry (n.literal.render ++ rest) = .fail := by
  obtain ⟨n, hn⟩ := n
  rw [NumberLiteral.render, List.append_assoc]
  cases hs : n.sign with
  | some b => cases b <;> exact atomRaw_fail_of_head (by decide) (by decide) _
  | none =>
    -- without a sign, the first letter of `nan` or `inf` is not lower case
    have hlow : ∀ d ∈ n.unsigned.head?, d.isLower = false := fun d hd => by
      simpa [NumberLiteral.startsLower, NumberLiteral.render, hs, signText, Option.mem_def.1 hd]
        using hn
    rw [signText, List.nil_append]
    cases n with
    | decimal d =>
      obtain ⟨c, t, hct, hc⟩ := d.head (exponentText d.exponent ++ rest)
      have hq : c ≠ '\'' := by rintro rfl; revert hc; decide
      have ha : c.isAlpha = false := by
        rcases hc with hc | rfl
        · exact isAlpha_eq_false_of_isDigit hc
        · rfl
      rw [NumberLiteral.unsigned, List.append_assoc, List.append_assoc, hct]
      exact atomRaw_fail_of_head hq ha t
    | nan _ letters payload hl hp =>
      obtain ⟨l, t, rfl, -⟩ := spells_cons hl
      have hcs := @isIdent_upper_spells _ _ _ [] hl (by decide) (by decide) (by simp)
        fun d hd => hlow d (by simpa [NumberLiteral.unsigned] using hd)
      rw [List.append_nil] at hcs
      have hends : EndsIdent ((payload.map fun p => '(' :: (p ++ [')'])).getD [] ++ rest) ∧
          ∀ d ∈ ((payload.map fun p => '(' :: (p ++ [')'])).getD [] ++ rest).head?, d ≠ ':' := by
        cases payload with
        | none => exact ⟨fun c hc => (hrest c hc).1, fun c hc => (hrest c hc).2.2.2⟩
        | some _ => exact ⟨by simp [EndsIdent]; decide, by simp⟩
      rw [NumberLiteral.unsigned, List.append_assoc]
      exact atomRaw_upper_fail hcs hends.1 hends.2
    | infinity _ letters inity hl hi =>
      obtain ⟨l, t, rfl, -⟩ := spells_cons hl
      have hmore : ∀ d ∈ inity.getD [], isIdentChar d := by
        cases inity with
        | none => simp
        | some l => exact spells_isIdentChar (by decide) (hi l rfl)
      have hcs := isIdent_upper_spells hl (by decide) (by decide) hmore
        fun d hd => hlow d (by simpa [NumberLiteral.unsigned] using hd)
      exact atomRaw_upper_fail hcs (fun c hc => (hrest c hc).1) fun c hc => (hrest c hc).2.2.2

theorem doubleQuotes_number_fail (n : NumberLiteral) (rest : List Char) :
    doubleQuotes (n.render ++ rest) = .fail := by
  rw [NumberLiteral.render, List.append_assoc]
  cases n.sign with
  | some b => cases b <;> exact quoted_fail (by decide) _
  | none =>
    obtain ⟨c, t, hct, hc⟩ := n.unsigned_head
    rw [signText, List.nil_append, hct, List.cons_append]
    exact quoted_fail (by rintro rfl; revert hc; decide) _

/-- `constant` reads a number literal that does not start with a lower-case letter as its
double. -/
theorem constant_number (n : ConstantNumber) {rest : List Char} (hrest : NumberEnds rest) :
    constant registry (n.literal.render ++ rest) = .ok (.double n.literal.value) rest := by
  simp [constant, atom, string, number, atomRaw_number_fail n hrest, doubleQuotes_number_fail,
    double_reads n.literal hrest]

end QueryParser

end Knowrob
