import Mathlib.Algebra.Order.Field.Power
import Mathlib.Algebra.Order.Field.Rat
import Mathlib.Tactic.Linarith
import Mathlib.Tactic.Ring
import Knowrob.Terms.Binary64

/-!
# Rounding to the nearest double

`Binary64.ofFraction` computes on natural numbers, with shifts for the powers of two. This module
shows that what it computes is the rounding IEEE 754 asks of the C++ arithmetic and of the
conversion of an integer: a finite result is a double (`Representable`), and no double is nearer
the exact quotient (`ofFraction_spec`). An infinity comes only where the rounded value reaches
`2^1024`.

The proof follows the computation. `log2Quotient` finds the power of two `2^L` under the quotient,
`unitExponent` places the unit `2^u` of the last significand bit there, and `roundQuotient` takes
the multiple of the unit nearest the quotient. A double whose exponent is at least `u` is such a
multiple too; one whose exponent is below `u` lies under `2^L`, a multiple of the unit that is
nearer.

The arithmetic operations build doubles only through `ofFraction`, so each of them returns a
`Valid` double on any operands (`add_valid`, `mul_valid`, `div_valid`).
-/

namespace Knowrob.Binary64

/-! ### The binade of the quotient -/

theorem bitLength_go_zero (fuel : Nat) : bitLength.go fuel 0 = 0 := by
  cases fuel <;> rfl

theorem bitLength_go_bounds : ∀ fuel n, 0 < n → n ≤ fuel →
    1 ≤ bitLength.go fuel n ∧ 2 ^ (bitLength.go fuel n - 1) ≤ n ∧
      n < 2 ^ bitLength.go fuel n
  | 0, _, hn, hf => absurd hf (by omega)
  | fuel + 1, n, hn, hf => by
    have hhalf : n >>> 1 = n / 2 := by simp [Nat.shiftRight_eq_div_pow]
    rw [bitLength.go, if_neg (by omega), hhalf]
    rcases Nat.eq_zero_or_pos (n / 2) with h0 | hpos
    · rw [h0, bitLength_go_zero]; simp only [Nat.zero_add, Nat.sub_self, pow_zero, pow_one]; omega
    · obtain ⟨h1, h2, h3⟩ := bitLength_go_bounds fuel (n / 2) hpos (by omega)
      have hpow : 2 ^ (bitLength.go fuel (n / 2) + 1 - 1) =
          2 * 2 ^ (bitLength.go fuel (n / 2) - 1) := by
        rw [← pow_succ']; congr 1; omega
      refine ⟨by omega, by rw [hpow]; omega, by rw [pow_succ]; omega⟩

theorem bitLength_bounds {n : Nat} (hn : 0 < n) :
    1 ≤ bitLength n ∧ 2 ^ (bitLength n - 1) ≤ n ∧ n < 2 ^ bitLength n :=
  bitLength_go_bounds n n hn le_rfl

/-- A power of two with an integer exponent, as the quotient of the two shifts the model makes. -/
theorem two_zpow_eq_div (e : ℤ) : (2 : ℚ) ^ e = 2 ^ e.toNat / 2 ^ (-e).toNat := by
  rcases le_total 0 e with h | h
  · rw [Int.toNat_eq_zero.2 (show -e ≤ 0 by omega), pow_zero, div_one, ← zpow_natCast,
      Int.toNat_of_nonneg h]
  · rw [Int.toNat_eq_zero.2 h, pow_zero, one_div, ← zpow_natCast,
      Int.toNat_of_nonneg (show 0 ≤ -e by omega), ← zpow_neg, neg_neg]

theorem two_zpow_pos (e : ℤ) : (0 : ℚ) < 2 ^ e := zpow_pos two_pos e

theorem two_zpow_sub (m n : ℕ) : (2 : ℚ) ^ ((m : ℤ) - n) = 2 ^ m / 2 ^ n := by
  rw [zpow_sub₀ two_ne_zero, zpow_natCast, zpow_natCast]

theorem shift_lt_shift_iff {a d : Nat} (hd : 0 < d) (e : ℤ) :
    a <<< (-e).toNat < d <<< e.toNat ↔ (a : ℚ) / d < 2 ^ e := by
  rw [two_zpow_eq_div, div_lt_div_iff₀ (by positivity) (by positivity), Nat.shiftLeft_eq,
    Nat.shiftLeft_eq, mul_comm (2 ^ e.toNat : ℚ)]
  exact_mod_cast Iff.rfl

/-- `log2Quotient` is `⌊log₂ (a / d)⌋`. -/
theorem log2Quotient_bounds {a d : Nat} (ha : 0 < a) (hd : 0 < d) :
    (2 : ℚ) ^ log2Quotient a d ≤ a / d ∧ (a / d : ℚ) < 2 ^ (log2Quotient a d + 1) := by
  obtain ⟨ha1, ha2, ha3⟩ := bitLength_bounds ha
  obtain ⟨hd1, hd2, hd3⟩ := bitLength_bounds hd
  dsimp only [log2Quotient]
  split_ifs with h
  · rw [shift_lt_shift_iff hd] at h
    refine ⟨?_, by rwa [sub_add_cancel]⟩
    calc (2 : ℚ) ^ ((bitLength a : ℤ) - bitLength d - 1)
        = 2 ^ (bitLength a - 1) / 2 ^ bitLength d := by
          rw [← two_zpow_sub]; congr 1; omega
      _ ≤ a / d := div_le_div₀ (by positivity) (by exact_mod_cast ha2) (by positivity)
          (by exact_mod_cast hd3.le)
  · rw [shift_lt_shift_iff hd, not_lt] at h
    refine ⟨h, ?_⟩
    calc (a / d : ℚ) < 2 ^ bitLength a / 2 ^ (bitLength d - 1) :=
          div_lt_div₀ (by exact_mod_cast ha3) (by exact_mod_cast hd2) (by positivity)
            (by positivity)
      _ = 2 ^ ((bitLength a : ℤ) - bitLength d + 1) := by
          rw [← two_zpow_sub]; congr 1; omega

/-! ### The nearest multiple of the unit -/

/-- An integer within a half of `x` is an integer nearest `x`: a nearer one would be less than `1`
from it. -/
theorem int_nearest_of_half {r : ℤ} {x : ℚ} (hr : |(r : ℚ) - x| ≤ 1 / 2) (k : ℤ) :
    |(r : ℚ) - x| ≤ |(k : ℚ) - x| := by
  by_contra h
  have hkr : |((k - r : ℤ) : ℚ)| < 1 := by
    rw [Int.cast_sub]
    linarith only [abs_sub_le (k : ℚ) x r, abs_sub_comm (r : ℚ) x, lt_of_not_le h, hr]
  rw [← Int.cast_abs, ← Int.cast_one, Int.cast_lt, Int.abs_lt_one_iff, sub_eq_zero] at hkr
  exact h (le_of_eq (by rw [hkr]))

theorem roundQuotient_half (a : Nat) {d : Nat} (hd : 0 < d) :
    |(roundQuotient a d : ℚ) - a / d| ≤ 1 / 2 := by
  have hd' : (0 : ℚ) < d := by exact_mod_cast hd
  have hx : (a / d : ℚ) = (a / d : ℕ) + ((a % d : ℕ) : ℚ) / d := by
    rw [add_div' _ _ _ hd'.ne']
    exact_mod_cast congrArg (fun n : ℕ => (n : ℚ) / d) (Nat.div_add_mod' a d).symm
  unfold roundQuotient
  rw [hx]
  split_ifs with h
  · have : (2 : ℚ) * (a % d : ℕ) ≤ d := by exact_mod_cast (show 2 * (a % d) ≤ d by omega)
    rw [sub_add_cancel_left, abs_neg, abs_of_nonneg (by positivity), div_le_iff₀ hd']
    linarith only [this]
  · have h1 : (d : ℚ) ≤ 2 * (a % d : ℕ) := by
      exact_mod_cast (show d ≤ 2 * (a % d) by omega)
    have h2 : ((a % d : ℕ) : ℚ) < d := by exact_mod_cast Nat.mod_lt a hd
    rw [Nat.cast_succ, add_sub_add_left_eq_sub, abs_le, le_sub_comm, sub_le_comm, div_le_iff₀ hd',
      le_div_iff₀ hd']
    constructor <;> linarith only [h1, h2]

/-- Rounding the quotient scaled by `2^-u` to an integer rounds it to a multiple of `2^u`. -/
theorem roundQuotient_unit {a d : ℕ} (hd : 0 < d) {x : ℚ} (u : ℤ)
    (hx : (a / d : ℚ) = x * 2 ^ (-u)) :
    |(roundQuotient a d : ℚ) * 2 ^ u - x| ≤ 2 ^ u / 2 ∧
      ∀ k : ℤ, |(roundQuotient a d : ℚ) * 2 ^ u - x| ≤ |(k : ℚ) * 2 ^ u - x| := by
  have h2 := two_zpow_pos u
  have hscale (y : ℚ) : |y * 2 ^ u - x| = |y - a / d| * 2 ^ u :=
    calc |y * 2 ^ u - x| = |(y - x * 2 ^ (-u)) * 2 ^ u| := by
          rw [sub_mul, mul_assoc, ← zpow_add₀ two_ne_zero, neg_add_cancel, zpow_zero, mul_one]
      _ = |y - a / d| * 2 ^ u := by rw [abs_mul, abs_of_pos h2, hx]
  have hhalf := roundQuotient_half a hd
  rw [hscale]
  refine ⟨(mul_le_mul_of_nonneg_right hhalf h2.le).trans_eq (one_div_mul_eq_div _ _),
    fun k => ?_⟩
  rw [hscale]
  exact mul_le_mul_of_nonneg_right (int_nearest_of_half (by rwa [Int.cast_natCast]) k) h2.le

theorem shift_div_shift (a d : ℕ) (u : ℤ) :
    ((a <<< (-u).toNat : ℕ) : ℚ) / (d <<< u.toNat : ℕ) = a / d * 2 ^ (-u) := by
  rw [two_zpow_eq_div, neg_neg]
  push_cast [Nat.shiftLeft_eq]
  rw [mul_div_mul_comm]

theorem nearest_eq (n : ℤ) (d : ℕ) :
    nearest n d = n.sign * (roundQuotient (n.natAbs <<< (-unitExponent n.natAbs d).toNat)
      (d <<< (unitExponent n.natAbs d).toNat) * (2 : ℚ) ^ unitExponent n.natAbs d) := by
  rw [nearest, Rat.mkRat_eq_div, two_zpow_eq_div]
  push_cast [Nat.shiftLeft_eq]
  ring

/-- For a positive quotient, the significand `nearest` takes is at most `2^53`, and no value of a
significand below `2^53` and an exponent from `-1074` is nearer than its multiple of the unit. A
value with an exponent from the unit on is itself a multiple of it; one with a lower exponent is
below `2^L`, the power of two under the quotient, which is a multiple of the unit and nearer. -/
theorem magnitude_nearest {a d : ℕ} (ha : 0 < a) (hd : 0 < d) :
    let u := unitExponent a d
    let R := roundQuotient (a <<< (-u).toNat) (d <<< u.toNat)
    R ≤ 2 ^ 53 ∧ ∀ M E : ℤ, |M| < 2 ^ 53 → -1074 ≤ E →
      |(R : ℚ) * 2 ^ u - a / d| ≤ |(M : ℚ) * 2 ^ E - a / d| := by
  intro u R
  obtain ⟨hL1, hL2⟩ := log2Quotient_bounds ha hd
  have hu : -1074 ≤ u ∧ log2Quotient a d - 52 ≤ u ∧
      (u = -1074 ∨ u = log2Quotient a d - 52) := by
    simp only [u, unitExponent]; omega
  have h2 := two_zpow_pos u
  obtain ⟨hhalf, hnear⟩ := roundQuotient_unit (by rw [Nat.shiftLeft_eq]; positivity) u
    (shift_div_shift a d u)
  have hpow (k : ℕ) (e : ℤ) : (2 : ℚ) ^ k * 2 ^ e = 2 ^ (k + e) := by
    rw [zpow_add₀ two_ne_zero, zpow_natCast]
  refine ⟨?_, fun M E hM hE => ?_⟩
  · have hx : (a / d : ℚ) < 2 ^ 53 * 2 ^ u :=
      calc (a / d : ℚ) < 2 ^ (log2Quotient a d + 1) := hL2
        _ ≤ 2 ^ 53 * 2 ^ u := by rw [hpow]; exact zpow_le_zpow_right₀ one_le_two (by omega)
    have hR : (R : ℚ) * 2 ^ u < (2 ^ 53 + 1) * 2 ^ u := by
      linarith only [(abs_le.1 hhalf).2, hx, h2]
    have : (R : ℚ) < 2 ^ 53 + 1 := lt_of_mul_lt_mul_right hR h2.le
    have : R < 2 ^ 53 + 1 := by exact_mod_cast this
    omega
  · by_cases hEu : u ≤ E
    · have hE : (M : ℚ) * 2 ^ E = ((M * 2 ^ (E - u).toNat : ℤ) : ℚ) * 2 ^ u := by
        push_cast
        rw [mul_assoc, hpow, Int.toNat_of_nonneg (by omega), sub_add_cancel]
      rw [hE]
      exact hnear _
    · have hy : (M : ℚ) * 2 ^ E < 2 ^ log2Quotient a d :=
        calc (M : ℚ) * 2 ^ E ≤ |(M : ℚ)| * 2 ^ E :=
              mul_le_mul_of_nonneg_right (le_abs_self _) (two_zpow_pos E).le
          _ < 2 ^ 53 * 2 ^ E := mul_lt_mul_of_pos_right (by exact_mod_cast hM) (two_zpow_pos E)
          _ ≤ 2 ^ 53 * 2 ^ (u - 1) := mul_le_mul_of_nonneg_left
              (zpow_le_zpow_right₀ one_le_two (by omega)) (by positivity)
          _ = 2 ^ log2Quotient a d := by rw [hpow]; congr 1; omega
      have hL : (2 : ℚ) ^ log2Quotient a d = ((2 ^ 52 : ℤ) : ℚ) * 2 ^ u := by
        rw [Int.cast_pow, Int.cast_ofNat, hpow]; congr 1; omega
      calc |(R : ℚ) * 2 ^ u - a / d| ≤ |((2 ^ 52 : ℤ) : ℚ) * 2 ^ u - a / d| := hnear _
        _ = a / d - 2 ^ log2Quotient a d := by
            rw [← hL, abs_of_nonpos (sub_nonpos.2 hL1), neg_sub]
        _ ≤ |(M : ℚ) * 2 ^ E - a / d| := by
            rw [abs_sub_comm]; exact (sub_le_sub_left hy.le _).trans (le_abs_self _)

/-! ### Correct rounding -/

/-- The values of binary64 with the exponent unbounded above: a significand below `2^53` in
magnitude times a power of two from `2^-1074`. -/
def OnGrid (x : ℚ) : Prop := ∃ m e : ℤ, |m| < 2 ^ 53 ∧ -1074 ≤ e ∧ x = m * 2 ^ e

/-- A finite double of IEEE 754 binary64: on the grid, and below `2^1024` in magnitude. -/
def Representable (x : ℚ) : Prop := OnGrid x ∧ |x| < 2 ^ 1024

/-- `nearest` rounds to the grid: it is on it, and no value of the grid is nearer `n / d`. -/
theorem nearest_spec (n : ℤ) {d : ℕ} (hd : 0 < d) :
    OnGrid (nearest n d) ∧ ∀ y, OnGrid y → |nearest n d - n / d| ≤ |y - n / d| := by
  rcases n.natAbs.eq_zero_or_pos with h0 | ha
  · rw [Int.natAbs_eq_zero.1 h0, nearest_eq]
    simp only [Int.sign_zero, Int.cast_zero, zero_mul, zero_div, sub_zero, abs_zero]
    exact ⟨⟨0, 0, by norm_num, by norm_num, by simp⟩, fun y _ => abs_nonneg y⟩
  have hsign : n.sign.natAbs = 1 := Int.natAbs_sign_of_nonzero (by omega)
  have hs1 : |n.sign| = 1 := by rw [Int.abs_eq_natAbs, hsign]; rfl
  have hsq : (n.sign : ℚ) * n.sign = 1 := by
    exact_mod_cast (show n.sign * n.sign = 1 by rw [← Int.natAbs_mul_self, hsign]; rfl)
  have habs : |(n.sign : ℚ)| = 1 := by exact_mod_cast hs1
  have hn : (n : ℚ) / d = n.sign * (n.natAbs / d) := by
    rw [← mul_div_assoc, ← Int.cast_natCast n.natAbs, ← Int.cast_mul, Int.sign_mul_natAbs]
  have hflip (y x : ℚ) : |y - n.sign * x| = |n.sign * y - x| :=
    calc |y - n.sign * x| = |(n.sign : ℚ)| * |y - n.sign * x| := by rw [habs, one_mul]
      _ = |n.sign * y - x| := by rw [← abs_mul, mul_sub, ← mul_assoc, hsq, one_mul]
  obtain ⟨hR, hnear⟩ := magnitude_nearest ha hd
  rw [nearest_eq]
  set u := unitExponent n.natAbs d
  set R := roundQuotient (n.natAbs <<< (-u).toNat) (d <<< u.toNat)
  have hu : -1074 ≤ u := le_max_right _ _
  refine ⟨?_, fun y ⟨M, E, hM, hE, hy⟩ => ?_⟩
  · rcases hR.lt_or_eq with hR | hR
    · refine ⟨n.sign * R, u, ?_, hu, by push_cast; ring⟩
      rw [abs_mul, hs1, one_mul, Nat.abs_cast]; exact_mod_cast hR
    · refine ⟨n.sign * 2 ^ 52, u + 1, by rw [abs_mul, hs1, one_mul]; norm_num, by omega, ?_⟩
      rw [hR, zpow_add_one₀ two_ne_zero]; push_cast; ring
  · calc |n.sign * (R * (2 : ℚ) ^ u) - n / d| = |R * (2 : ℚ) ^ u - n.natAbs / d| := by
          rw [hn, ← mul_sub, abs_mul, habs, one_mul]
      _ ≤ |((n.sign * M : ℤ) : ℚ) * 2 ^ E - n.natAbs / d| :=
          hnear _ _ (by rwa [abs_mul, hs1, one_mul]) hE
      _ = |y - n / d| := by rw [hy, hn, hflip, Int.cast_mul, mul_assoc]

theorem overflow_iff (k : ℕ) (x : ℚ) :
    1 <<< k * x.den ≤ x.num.natAbs ↔ (2 : ℚ) ^ k ≤ |x| := by
  conv_rhs => rw [← Rat.num_div_den x]
  rw [abs_div, Nat.abs_cast, le_div_iff₀ (by exact_mod_cast x.den_pos), Nat.one_shiftLeft,
    ← Int.cast_abs, Int.abs_eq_natAbs]
  exact_mod_cast Iff.rfl

/-- `ofFraction` rounds to nearest as IEEE 754 does: a finite result is a double and no double is
nearer `n / d`; an infinity, of the sign of `n`, stands for a rounded value of `2^1024` or more. -/
theorem ofFraction_spec (n : ℤ) {d : ℕ} (hd : 0 < d) :
    (∀ r, ofFraction n d = .finite r →
      Representable r ∧ ∀ y, Representable y → |r - n / d| ≤ |y - n / d|) ∧
    ∀ b, ofFraction n d = .infinity b → b = decide (n < 0) ∧ 2 ^ 1024 ≤ |nearest n d| := by
  obtain ⟨hgrid, hnear⟩ := nearest_spec n hd
  dsimp only [ofFraction]
  split_ifs with h
  · exact ⟨nofun, fun b hb => ⟨(infinity.inj hb).symm, (overflow_iff 1024 _).1 h⟩⟩
  · refine ⟨fun r hr => ?_, nofun⟩
    cases hr
    exact ⟨⟨hgrid, lt_of_not_le (mt (overflow_iff 1024 _).2 h)⟩, fun y hy => hnear y hy.1⟩

/-- A double as IEEE 754 has them: a finite one is representable. -/
def Valid (x : Binary64) : Prop := ∀ r, x = finite r → Representable r

theorem Representable.neg {x : ℚ} (hx : Representable x) : Representable (-x) := by
  obtain ⟨⟨m, e, hm, he, rfl⟩, hlt⟩ := hx
  exact ⟨⟨-m, e, by rwa [abs_neg], he, by push_cast; ring⟩, by rwa [abs_neg]⟩

theorem representable_zero : Representable 0 :=
  ⟨⟨0, 0, by norm_num, by norm_num, by simp⟩, by norm_num⟩

theorem ofFraction_valid (n : ℤ) (d : ℕ) (hd : 0 < d) : (ofFraction n d).Valid :=
  fun r h => ((ofFraction_spec n hd).1 r h).1

theorem ofNat_valid (n : ℕ) : (ofNat n).Valid := ofFraction_valid n 1 Nat.one_pos

theorem neg_valid {x : Binary64} (hx : x.Valid) : x.neg.Valid := by
  cases x with
  | finite x => rintro r ⟨⟩; exact (hx x rfl).neg
  | infinity _ | nan => nofun

theorem add_valid : ∀ x y : Binary64, (x.add y).Valid
  | finite x, finite y =>
    ofFraction_valid (x.num * y.den + y.num * x.den) (x.den * y.den)
      (Nat.mul_pos x.den_pos y.den_pos)
  | infinity a, infinity b => by simp only [add]; split_ifs <;> nofun
  | infinity _, finite _ | finite _, infinity _ | nan, finite _ | nan, infinity _ | nan, nan
  | infinity _, nan | finite _, nan => nofun

theorem mul_valid : ∀ x y : Binary64, (x.mul y).Valid
  | finite x, finite y => ofFraction_valid (x.num * y.num) (x.den * y.den)
    (Nat.mul_pos x.den_pos y.den_pos)
  | infinity _, finite _ | finite _, infinity _ => by simp only [mul]; split_ifs <;> nofun
  | infinity _, infinity _ | nan, finite _ | nan, infinity _ | nan, nan | infinity _, nan
  | finite _, nan => nofun

theorem div_valid : ∀ x y : Binary64, (x.div y).Valid
  | finite x, finite y => by
    simp only [div]
    split_ifs with hy
    · nofun
    · nofun
    · exact ofFraction_valid _ _ (Nat.mul_pos x.den_pos (Int.natAbs_pos.2 (Rat.num_ne_zero.2 hy)))
  | finite _, infinity _ => by rintro r ⟨⟩; exact representable_zero
  | infinity _, finite _ | infinity _, infinity _ | nan, finite _ | nan, infinity _ | nan, nan
  | infinity _, nan | finite _, nan => nofun

end Knowrob.Binary64
