import Knowrob.Terms.Rounding
import Knowrob.Queries.Qi

/-!
# The real parser of Spirit Qi

`qi::double_`, the parser of the grammar's `number` rule, runs `real_impl<double,
real_policies<double>>::parse` of Boost Spirit (the version with the 64-bit accumulator and the
table of powers of ten). It reads, in this order:

* an optional sign (`extract_sign`);
* integer digits into an `unsigned long long` accumulator, as long as the value fits, and then
  the digits that did not fit, which it only counts (`excess_n`);
* without an integer digit, `nan` (any case, with an optional `(...)`) or `inf`/`infinity` (any
  case), or else a dot that fraction digits must follow;
* an optional dot, after which fraction digits go into the accumulator while they fit
  (`frac_digits` counts them) and the rest are skipped;
* an optional exponent, `e` or `E` and a signed `int`; where no `int` follows the letter, or the
  value overflows an `int`, the letter is given back;

and then scales the accumulator by the power of ten the exponent, the excess digits and the
fraction digits give (`traits::scale`). Scaling fails above `max_exponent10 = 308` and below
twice `min_exponent10 = -307`; every operation on the way is a rounded `double` operation, with
the powers of ten taken from a table of correctly rounded literals.

On the failure of `scale`, `real_impl` returns false with the iterator after the literal; here the
parser fails, as an alternative that backtracks does.

Every operation on the way builds its double by rounding to nearest, so every number the parser
reads is a double of IEEE 754 (`double_valid`).
-/

namespace Knowrob

open Binary64

namespace QueryParser

/-- The value of a string of decimal digits. -/
def digitsValue (ds : List Char) : Nat := ds.foldl (fun n d => 10 * n + (d.toNat - '0'.toNat)) 0

/-- `extract_sign`: reads a `-` or a `+`, and tells whether it read a `-`. -/
def extractSign : List Char → Bool × List Char
  | '-' :: s => (true, s)
  | '+' :: s => (false, s)
  | s => (false, s)

/-- The largest `unsigned long long`, the type of `real_impl`'s accumulator. -/
def accumulatorMax : Nat := 2 ^ 64 - 1

/-- `extract_uint<unsigned long long, 10, 1, -1, Accumulate, true>` from the accumulator `acc`:
adds digits while the value stays at most `accumulatorMax`, and stops before the first digit that
does not fit. Gives the accumulator, the number of digits added and the rest. -/
def accumulateDigits (acc : Nat) : List Char → Nat × Nat × List Char
  | c :: s =>
    if c.isDigit ∧ 10 * acc + (c.toNat - '0'.toNat) ≤ accumulatorMax then
      let r := accumulateDigits (10 * acc + (c.toNat - '0'.toNat)) s
      (r.1, r.2.1 + 1, r.2.2)
    else (acc, 0, c :: s)
  | [] => (acc, 0, [])

/-- `ignore_excess_digits`: skips digits, and gives how many. -/
def skipDigits (s : List Char) : Nat × List Char :=
  ((s.takeWhile Char.isDigit).length, s.dropWhile Char.isDigit)

/-- `parse_n`: integer digits into the accumulator; nothing where no digit stands. -/
def parseN : List Char → Option (Nat × List Char)
  | c :: s =>
    if c.isDigit then
      let r := accumulateDigits 0 (c :: s)
      some (r.1, r.2.2)
    else none
  | [] => none

/-- `parse_frac_n` on the accumulator `acc`: fraction digits added while they fit, the others
skipped. Gives the accumulator, the number of digits added and the rest; nothing where no digit
stands. -/
def parseFracN (acc : Nat) : List Char → Option (Nat × Nat × List Char)
  | c :: s =>
    if c.isDigit then
      let r := accumulateDigits acc (c :: s)
      some (r.1, r.2.1, (skipDigits r.2.2).2)
    else none
  | [] => none

/-- `detail::string_parse`: the letters of `word`, each in lower or in upper case. -/
def caseless : List Char → List Char → Option (List Char)
  | [], s => some s
  | c :: word, d :: s => if d = c ∨ d = c.toUpper then caseless word s else none
  | _ :: _, [] => none

/-- `parse_nan`: `nan`, and a `(...)` after it skipped; nothing where the `(` has no `)`. -/
def parseNan (s : List Char) : Option (List Char) :=
  match caseless ['n', 'a', 'n'] s with
  | some ('(' :: r) => if ')' ∈ r then some (r.dropWhile (· != ')')).tail else none
  | r => r

/-- `parse_inf`: `inf`, or `infinity`. -/
def parseInf (s : List Char) : Option (List Char) :=
  (caseless ['i', 'n', 'f'] s).map fun r => (caseless ['i', 'n', 'i', 't', 'y'] r).getD r

def parseDot : List Char → Option (List Char)
  | '.' :: s => some s
  | _ => none

/-- `parse_exp`: the letter of an exponent. -/
def parseExp : List Char → Option (List Char)
  | c :: s => if c = 'e' ∨ c = 'E' then some s else none
  | [] => none

/-- `parse_exp_n`, `extract_int<int, 10, 1, -1>`: a sign and digits whose value an `int` holds;
nothing without a digit or on an overflow. -/
def parseExpN (s : List Char) : Option (Int × List Char) :=
  let (negative, r) := extractSign s
  let ds := r.takeWhile Char.isDigit
  if ds = [] then none
  else if negative then
    if digitsValue ds ≤ 2 ^ 31 then some (-(digitsValue ds : Int), r.dropWhile Char.isDigit)
    else none
  else if digitsValue ds ≤ 2 ^ 31 - 1 then some (digitsValue ds, r.dropWhile Char.isDigit)
  else none

/-- `std::numeric_limits<double>::max_exponent10`. -/
def maxExponent10 : Int := 308

/-- `std::numeric_limits<double>::min_exponent10`. -/
def minExponent10 : Int := -307

/-- `pow10<double>(k)`: the table entry `1ek`, the double nearest `10^k`. -/
def pow10 (k : Nat) : Binary64 := ofNat (10 ^ k)

/-- `traits::scale(exp, n, acc_n)` for `double`; nothing where it returns false. Below
`min_exponent10` it first compensates the roundoff (`compensate_roundoff`) and divides in two
steps. -/
def scale (exp : Int) (acc : Nat) : Option Binary64 :=
  if 0 ≤ exp then
    if exp > maxExponent10 then none else some ((ofNat acc).mul (pow10 exp.toNat))
  else if exp < minExponent10 then
    let n := (ofNat (acc / 10 * 10)).add (ofNat (acc % 10))
    let n := n.div (pow10 (-minExponent10).toNat)
    let exp := exp + -minExponent10
    if exp < minExponent10 then none else some (n.div (pow10 (-exp).toNat))
  else some ((ofNat acc).div (pow10 (-exp).toNat))

/-- `traits::negate(neg, n)`. -/
def negate (negative : Bool) (n : Binary64) : Binary64 := if negative then n.neg else n

/-- The end of `real_impl::parse`: the number `scale` gave, with its sign, or the failure where
`scale` returned false. -/
def ofScale (negative : Bool) : Option Binary64 → List Char → Outcome Binary64
  | some n, rest => .ok (negate negative n) rest
  | none, _ => .fail

/-- The number `real_impl::parse` makes of the accumulator, the excess digits and the fraction
digits, with the exponent where one was read: `scale` by the exponent with the excess digits added
and the fraction digits taken off; without an exponent, by the fraction digits, or else by the
excess digits, or else the accumulator as it is. -/
def scaleParts (acc excess frac : Nat) : Option Int → Option Binary64
  | some exp => scale (exp + excess - frac) acc
  | none =>
    if frac ≠ 0 then scale (-frac) acc
    else if excess ≠ 0 then scale excess acc
    else some (ofNat acc)

/-- The part of `real_impl::parse` after the digits: the exponent, whose letter is given back,
and the excess digits ignored, where no `int` follows it; then the scaling and the sign. -/
def exponentPart (negative : Bool) (acc excess frac : Nat) (s : List Char) : Outcome Binary64 :=
  match parseExp s with
  | some s' =>
    match parseExpN s' with
    | some (exp, rest) => ofScale negative (scaleParts acc excess frac (some exp)) rest
    | none => ofScale negative (scale (-frac) acc) s
  | none => ofScale negative (scaleParts acc excess frac none) s

/-- The part of `real_impl::parse` after integer digits, with the accumulator and the excess
digits: a dot with its fraction digits, which are skipped where digits were left out already,
then the exponent. -/
def fractionPart (negative : Bool) (acc excess : Nat) (s : List Char) : Outcome Binary64 :=
  match parseDot s with
  | none => exponentPart negative acc excess 0 s
  | some s =>
    if excess ≠ 0 then exponentPart negative acc excess 0 (skipDigits s).2
    else
      match parseFracN acc s with
      | some (acc, frac, rest) => exponentPart negative acc 0 frac rest
      | none => exponentPart negative acc 0 0 s

/-- `real_impl::parse` after the sign: integer digits and the rest of the number, or else `nan`,
`inf`, or a leading dot with fraction digits. -/
def unsignedPart (negative : Bool) (s : List Char) : Outcome Binary64 :=
  match parseN s with
  | some (acc, s) => fractionPart negative acc (skipDigits s).1 (skipDigits s).2
  | none =>
    match parseNan s with
    | some rest => .ok (negate negative .nan) rest
    | none =>
      match parseInf s with
      | some rest => .ok (negate negative (.infinity false)) rest
      | none =>
        match parseDot s >>= parseFracN 0 with
        | some (acc, frac, rest) => exponentPart negative acc 0 frac rest
        | none => .fail

/-- `qi::double_`: `real_impl<double, real_policies<double>>::parse`, which fails on the empty
input and reads a sign first. -/
def double : Parser Binary64
  | [] => .fail
  | c :: s => unsignedPart (extractSign (c :: s)).1 (extractSign (c :: s)).2

/-! ### What each step leaves -/

theorem digit_value_le {c : Char} (h : c.isDigit) : c.toNat - '0'.toNat ≤ 9 := by
  simp only [Char.isDigit, Bool.and_eq_true, decide_eq_true_eq, UInt32.le_def, BitVec.le_def,
    UInt32.toBitVec_ofNat, BitVec.toNat_ofNat] at h
  show c.val.toBitVec.toNat - 48 ≤ 9
  omega

theorem extractSign_length (s : List Char) : (extractSign s).2.length ≤ s.length := by
  unfold extractSign
  split <;> simp

/-- The digits `accumulateDigits` adds and the rest it leaves make up its input. -/
theorem accumulateDigits_length (acc : Nat) :
    ∀ s : List Char, (accumulateDigits acc s).2.2.length + (accumulateDigits acc s).2.1 = s.length
  | [] => rfl
  | c :: s => by
    have ih := accumulateDigits_length (10 * acc + (c.toNat - '0'.toNat)) s
    simp only [accumulateDigits]
    split_ifs
    · simp only [List.length_cons]
      omega
    · simp

theorem skipDigits_length (s : List Char) : (skipDigits s).2.length ≤ s.length :=
  (List.dropWhile_suffix _).length_le

theorem parseN_length {s r : List Char} {acc : Nat} (h : parseN s = some (acc, r)) :
    r.length < s.length := by
  match s, h with
  | c :: s, h =>
    simp only [parseN] at h
    split_ifs at h with hc
    cases h
    have hfit : c.isDigit ∧ 10 * 0 + (c.toNat - '0'.toNat) ≤ accumulatorMax :=
      ⟨hc, by have := digit_value_le hc; simp only [accumulatorMax]; omega⟩
    have := accumulateDigits_length (10 * 0 + (c.toNat - '0'.toNat)) s
    simp only [accumulateDigits, if_pos hfit, List.length_cons]
    omega

theorem parseFracN_length {s r : List Char} {acc acc' frac : Nat}
    (h : parseFracN acc s = some (acc', frac, r)) : r.length ≤ s.length := by
  match s, h with
  | c :: s, h =>
    simp only [parseFracN] at h
    split_ifs at h
    cases h
    have := accumulateDigits_length acc (c :: s)
    have := skipDigits_length (accumulateDigits acc (c :: s)).2.2
    omega

theorem caseless_length : ∀ {word s r : List Char}, caseless word s = some r →
    r.length + word.length = s.length
  | [], _, _, h => by cases h; rfl
  | c :: word, d :: s, r, h => by
    simp only [caseless] at h
    split_ifs at h
    have := caseless_length h
    simp only [List.length_cons]
    omega

theorem parseNan_length {s r : List Char} (h : parseNan s = some r) : r.length < s.length := by
  unfold parseNan at h
  cases hc : caseless ['n', 'a', 'n'] s with
  | none => rw [hc] at h; cases h
  | some r' =>
    have h₁ := caseless_length hc
    simp only [List.length_cons, List.length_nil] at h₁
    rw [hc] at h
    split at h
    · rename_i r'' heq
      cases heq
      split_ifs at h
      cases h
      have := (List.dropWhile_suffix (· != ')') (l := r'')).length_le
      simp only [List.length_cons, List.length_tail] at h₁ ⊢
      omega
    · cases h
      omega

theorem parseInf_length {s r : List Char} (h : parseInf s = some r) : r.length < s.length := by
  unfold parseInf at h
  obtain ⟨r', hr', rfl⟩ := Option.map_eq_some'.1 h
  have h₁ := caseless_length hr'
  have h₂ : ((caseless ['i', 'n', 'i', 't', 'y'] r').getD r').length ≤ r'.length := by
    cases hc : caseless ['i', 'n', 'i', 't', 'y'] r' with
    | none => exact le_rfl
    | some r'' => have := caseless_length hc; simp only [Option.getD_some]; omega
  simp only [List.length_cons, List.length_nil] at h₁
  omega

theorem parseDot_length {s r : List Char} (h : parseDot s = some r) : r.length < s.length := by
  unfold parseDot at h
  split at h
  · cases h; simp
  · cases h

theorem parseExp_length {s r : List Char} (h : parseExp s = some r) : r.length < s.length := by
  match s, h with
  | c :: s, h =>
    simp only [parseExp] at h
    split_ifs at h
    cases h
    simp

theorem parseExpN_length {s r : List Char} {e : Int} (h : parseExpN s = some (e, r)) :
    r.length ≤ s.length := by
  have hsign := extractSign_length s
  have hdrop := (List.dropWhile_suffix Char.isDigit (l := (extractSign s).2)).length_le
  unfold parseExpN at h
  generalize extractSign s = p at h hsign hdrop
  obtain ⟨negative, r'⟩ := p
  dsimp only at h hsign hdrop
  split_ifs at h <;> cases h <;> omega

theorem ofScale_length {negative : Bool} {n : Option Binary64} {s r : List Char} {v : Binary64}
    (h : ofScale negative n s = .ok v r) : r = s := by
  cases n <;> cases h; rfl

theorem exponentPart_length {negative : Bool} {acc excess frac : Nat} {s r : List Char}
    {v : Binary64} (h : exponentPart negative acc excess frac s = .ok v r) :
    r.length ≤ s.length := by
  unfold exponentPart at h
  split at h
  · rename_i s' hs'
    have := parseExp_length hs'
    split at h
    · rename_i e r' hr'
      have := parseExpN_length hr'
      rw [ofScale_length h]
      omega
    · rw [ofScale_length h]
  · rw [ofScale_length h]

theorem fractionPart_length {negative : Bool} {acc excess : Nat} {s r : List Char}
    {v : Binary64} (h : fractionPart negative acc excess s = .ok v r) : r.length ≤ s.length := by
  unfold fractionPart at h
  split at h
  · exact exponentPart_length h
  · rename_i s' hdot
    have := parseDot_length hdot
    split_ifs at h
    · have := exponentPart_length h
      have := skipDigits_length s'
      omega
    · split at h
      · rename_i hf
        have := exponentPart_length h
        have := parseFracN_length hf
        omega
      · have := exponentPart_length h
        omega

/-- After the sign, `double` matches only after reading a character. -/
theorem unsignedPart_length {negative : Bool} {s r : List Char} {v : Binary64}
    (h : unsignedPart negative s = .ok v r) : r.length < s.length := by
  unfold unsignedPart at h
  split at h
  · rename_i acc s₁ hn
    have := parseN_length hn
    have := fractionPart_length h
    have := skipDigits_length s₁
    omega
  · split at h
    · rename_i hnan
      cases h
      exact parseNan_length hnan
    · split at h
      · rename_i hinf
        cases h
        exact parseInf_length hinf
      · split at h
        · rename_i hf
          obtain ⟨s₃, hdot, hfrac⟩ := Option.bind_eq_some.1 hf
          have := exponentPart_length h
          have := parseDot_length hdot
          have := parseFracN_length hfrac
          omega
        · cases h

/-- `double` matches only after reading a character. -/
theorem double_length {s r : List Char} {v : Binary64} (h : double s = .ok v r) :
    r.length < s.length := by
  match s, h with
  | c :: s, h =>
    have := unsignedPart_length h
    have := extractSign_length (c :: s)
    omega

theorem ofScale_ne_exhausted (negative : Bool) (n : Option Binary64) (s : List Char) :
    ofScale negative n s ≠ .exhausted := by
  cases n <;> nofun

theorem exponentPart_ne_exhausted (negative : Bool) (acc excess frac : Nat) (s : List Char) :
    exponentPart negative acc excess frac s ≠ .exhausted := by
  unfold exponentPart
  split
  · split <;> exact ofScale_ne_exhausted _ _ _
  · exact ofScale_ne_exhausted _ _ _

theorem double_ne_exhausted (s : List Char) : double s ≠ .exhausted := by
  match s with
  | [] => nofun
  | c :: s =>
    simp only [double, unsignedPart, fractionPart]
    split
    · split
      · exact exponentPart_ne_exhausted _ _ _ _ _
      · split_ifs
        · exact exponentPart_ne_exhausted _ _ _ _ _
        · split <;> exact exponentPart_ne_exhausted _ _ _ _ _
    · split
      · nofun
      · split
        · nofun
        · split
          · exact exponentPart_ne_exhausted _ _ _ _ _
          · nofun

/-! ### Every number read is a double -/

theorem negate_valid (negative : Bool) {n : Binary64} (hn : n.Valid) :
    (negate negative n).Valid := by
  cases negative
  · exact hn
  · exact neg_valid hn

theorem scale_valid {exp : Int} {acc : Nat} {n : Binary64} (h : scale exp acc = some n) :
    n.Valid := by
  simp only [scale] at h
  split_ifs at h <;> cases h
  · exact mul_valid _ _
  · exact div_valid _ _
  · exact div_valid _ _

theorem scaleParts_valid {acc excess frac : Nat} {exp : Option Int} {n : Binary64}
    (h : scaleParts acc excess frac exp = some n) : n.Valid := by
  cases exp with
  | some exp => exact scale_valid h
  | none =>
    simp only [scaleParts] at h
    split_ifs at h
    · exact scale_valid h
    · exact scale_valid h
    · cases h; exact ofNat_valid acc

theorem ofScale_valid {negative : Bool} {n : Option Binary64} {s r : List Char} {v : Binary64}
    (hn : ∀ x, n = some x → x.Valid) (h : ofScale negative n s = .ok v r) : v.Valid := by
  cases n with
  | some x => cases h; exact negate_valid negative (hn x rfl)
  | none => cases h

theorem exponentPart_valid {negative : Bool} {acc excess frac : Nat} {s r : List Char}
    {v : Binary64} (h : exponentPart negative acc excess frac s = .ok v r) : v.Valid := by
  unfold exponentPart at h
  split at h
  · split at h
    · exact ofScale_valid (fun _ => scaleParts_valid) h
    · exact ofScale_valid (fun _ => scale_valid) h
  · exact ofScale_valid (fun _ => scaleParts_valid) h

/-- Every number `qi::double_` reads is a double of IEEE 754: where finite, a representable binary64
value. -/
theorem double_valid {s r : List Char} {v : Binary64} (h : double s = .ok v r) : v.Valid := by
  match s, h with
  | c :: s, h =>
    simp only [double, unsignedPart, fractionPart] at h
    split at h
    · split at h
      · exact exponentPart_valid h
      · split_ifs at h
        · exact exponentPart_valid h
        · split at h <;> exact exponentPart_valid h
    · split at h
      · cases h; exact negate_valid _ nofun
      · split at h
        · cases h; exact negate_valid _ nofun
        · split at h
          · exact exponentPart_valid h
          · cases h

/-- A number starts with a digit, a sign, a dot, or the first letter of `nan` or `inf`. -/
theorem double_fail_of_head {c : Char} (hd : c.isDigit = false)
    (hc : c ≠ '-' ∧ c ≠ '+' ∧ c ≠ '.' ∧ c ≠ 'n' ∧ c ≠ 'N' ∧ c ≠ 'i' ∧ c ≠ 'I') (s : List Char) :
    double (c :: s) = .fail := by
  obtain ⟨hm, hp, hdot, hn, hN, hi, hI⟩ := hc
  have hsign : extractSign (c :: s) = (false, c :: s) := by
    unfold extractSign; split <;> simp_all
  simp [double, hsign, unsignedPart, parseN, hd, parseNan, parseInf, caseless, hn, hN, hi, hI,
    parseDot, hdot]

end QueryParser

end Knowrob
