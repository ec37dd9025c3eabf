import Mathlib.Data.Rat.Defs

/-!
# Doubles

The values of C++'s `double`, IEEE 754 binary64, and the arithmetic the modelled code does on
them. A finite double is kept as its exact value, so that two doubles are equal exactly when their
values are; an infinity keeps its sign, and a NaN nothing. The sign of a zero is not kept: no
modelled function tells `-0.0` from `0.0`, and `==` makes them equal.

A double is only ever built by `ofFraction`, round-to-nearest of an exact rational, ties to even,
as the C++ arithmetic operators and the conversion from an integer do. The significand has 53 bits
(`unitExponent` places the last of them), below `2^-1022` the last bit stays at `2^-1074`, and a
value that rounds to `2^1024` or more overflows to an infinity. The computations run on natural
numbers, with shifts for the powers of two, so that a small case can be evaluated by `decide`.

`equals` is the operator `==`: a NaN equals nothing, itself included (`equals_iff`).
-/

namespace Knowrob

/-- A value of C++'s `double`: a finite number, an infinity of either sign, or a NaN. -/
inductive Binary64 where
  | finite (value : ℚ)
  | infinity (negative : Bool)
  | nan
  deriving DecidableEq, Repr

namespace Binary64

/-! ### Rounding -/

/-- The number of binary digits of `n`, `0` for `0`. The recursion halves `n`, with `n` itself as
the fuel that bounds the halvings. -/
def bitLength (n : Nat) : Nat := go n n
where
  /-- Halve `n` until it is `0`, with at most `fuel` halvings. -/
  go : Nat → Nat → Nat
    | 0, _ => 0
    | fuel + 1, n => if n = 0 then 0 else go fuel (n >>> 1) + 1

/-- `⌊log₂ (n / d)⌋` for positive `n` and `d`: the difference of their lengths, less one where
the quotient falls below that power of two. -/
def log2Quotient (n d : Nat) : Int :=
  let e : Int := (bitLength n : Int) - bitLength d
  if n <<< (-e).toNat < d <<< e.toNat then e - 1 else e

/-- The exponent of the last significand bit at the magnitude `n / d`: 52 places below the
leading bit, and never below `-1074`, the last bit of the subnormals. -/
def unitExponent (n d : Nat) : Int := max (log2Quotient n d - 52) (-1074)

/-- The natural number nearest `a / d`, a tie going to the even one. -/
def roundQuotient (a d : Nat) : Nat :=
  if 2 * (a % d) < d ∨ 2 * (a % d) = d ∧ a / d % 2 = 0 then a / d else a / d + 1

/-- The multiple of `2^u` nearest `n / d` (`d > 0`), where `u` is the exponent of the last
significand bit there, a tie going to the even significand; no exponent bound above. -/
def nearest (n : Int) (d : Nat) : ℚ :=
  let u := unitExponent n.natAbs d
  let m := roundQuotient (n.natAbs <<< (-u).toNat) (d <<< u.toNat)
  mkRat (n.sign * (m <<< u.toNat : Nat)) (1 <<< (-u).toNat)

/-- The double nearest `n / d` (`d > 0`): the infinity of the sign of `n` where the nearest value
reaches `2^1024`. -/
def ofFraction (n : Int) (d : Nat) : Binary64 :=
  let x := nearest n d
  if 1 <<< 1024 * x.den ≤ x.num.natAbs then .infinity (decide (n < 0)) else .finite x

/-- The conversion of an integer to `double`. -/
def ofNat (n : Nat) : Binary64 := ofFraction n 1

/-! ### Arithmetic -/

def neg : Binary64 → Binary64
  | finite x => finite (-x)
  | infinity negative => infinity (!negative)
  | nan => nan

/-- `x + y`: the exact sum rounded; the sum of opposite infinities is a NaN. -/
def add : Binary64 → Binary64 → Binary64
  | finite x, finite y => ofFraction (x.num * y.den + y.num * x.den) (x.den * y.den)
  | infinity a, infinity b => if a = b then infinity a else nan
  | infinity a, finite _ | finite _, infinity a => infinity a
  | nan, _ | _, nan => nan

/-- `x * y`: the exact product rounded; an infinity times zero is a NaN. -/
def mul : Binary64 → Binary64 → Binary64
  | finite x, finite y => ofFraction (x.num * y.num) (x.den * y.den)
  | infinity a, infinity b => infinity (a != b)
  | infinity a, finite y | finite y, infinity a =>
    if y = 0 then nan else infinity (a != decide (y < 0))
  | nan, _ | _, nan => nan

/-- `x / y`: the exact quotient rounded; a nonzero number over zero is an infinity, and zero over
zero or an infinity over an infinity a NaN. -/
def div : Binary64 → Binary64 → Binary64
  | finite x, finite y =>
    if y = 0 then (if x = 0 then nan else infinity (decide (x < 0)))
    else ofFraction (x.num * y.den * y.num.sign) (x.den * y.num.natAbs)
  | infinity a, finite y => infinity (a != decide (y < 0))
  | finite _, infinity _ => finite 0
  | infinity _, infinity _ | nan, _ | _, nan => nan

/-- `x == y`: finite values compare their values and infinities their signs; a NaN equals
nothing. -/
def equals : Binary64 → Binary64 → Bool
  | finite x, finite y => x == y
  | infinity a, infinity b => a == b
  | _, _ => false

theorem equals_iff {x y : Binary64} : x.equals y = true ↔ x = y ∧ x ≠ nan := by
  cases x <;> cases y <;> simp [equals]

theorem equals_self_iff {x : Binary64} : x.equals x = true ↔ x ≠ nan := by
  simp [equals_iff]

end Binary64

end Knowrob
