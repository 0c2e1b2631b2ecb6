import FilterSql.Proofs.Decimal.Numeral
import FilterSql.Compile.Coercion

/-!
# Limits of decimals

A column of a precision and a scale holds the numbers that have no more places behind the point
than the scale says and no more in front of it than the precision leaves (`Decimal.Fits`). The
check `Decimal.excess?` counts digits, and so it takes the numbers that fit. But it also counts the
zeros of a zero, and it counts in words of 64 bits. `Decimal.excess?_eq_none` says what it takes,
in all cases.
-/

namespace FilterSql.Decimal

variable {precision scale m k : ℕ} {v : ℚ}

/-- Whether a column of this `precision` and `scale` holds the number `v`. -/
def Fits (precision scale : ℕ) (v : ℚ) : Prop :=
  (∃ k : ℤ, v * 10 ^ scale = k) ∧ |v| < 10 ^ (precision - scale)

theorem Fits.neg (h : Fits precision scale v) : Fits precision scale (-v) := by
  obtain ⟨⟨k, hk⟩, hbound⟩ := h
  exact ⟨⟨-k, by rw [neg_mul, hk, Int.cast_neg]⟩, by rwa [abs_neg]⟩

theorem fits_abs : Fits precision scale |v| ↔ Fits precision scale v := by
  rcases abs_choice v with h | h
  · rw [h]
  · rw [h]
    exact ⟨fun hv => neg_neg v ▸ hv.neg, Fits.neg⟩

/-- A number with `k` places behind the point, of which the last one counts, `Fits` by the number
of these places and by its digits. -/
theorem fits_places (hm : k = 0 ∨ m % 10 ≠ 0) :
    Fits precision scale (m / 10 ^ k) ↔ k ≤ scale ∧ m < 10 ^ (precision - scale + k) := by
  have hpos : (0 : ℚ) < 10 ^ k := by positivity
  have hbound : |(m / 10 ^ k : ℚ)| < 10 ^ (precision - scale) ↔
    m < 10 ^ (precision - scale + k) := by
    rw [abs_of_nonneg (div_nonneg (Nat.cast_nonneg m) hpos.le), div_lt_iff₀ hpos, ← pow_add]
    exact_mod_cast Iff.rfl
  rw [Fits, hbound, and_congr_left_iff]
  intro _
  constructor
  · rintro ⟨j, hj⟩
    by_contra hk
    -- With a place too many the last digit is that of a multiple of ten, a zero.
    obtain ⟨a, rfl⟩ := Nat.exists_eq_add_of_lt (Nat.lt_of_not_le hk)
    have hdigit : (m : ℤ) = j * 10 ^ a * 10 := by
      rw [div_mul_eq_mul_div, div_eq_iff hpos.ne', Nat.add_assoc, pow_add, ← mul_assoc,
        mul_right_comm, mul_left_inj' (by positivity), pow_succ, ← mul_assoc] at hj
      exact_mod_cast hj
    omega
  · intro hk
    refine ⟨m * 10 ^ (scale - k), ?_⟩
    push_cast
    rw [div_mul_eq_mul_div, div_eq_iff hpos.ne', mul_assoc, ← pow_add, Nat.sub_add_cancel hk]

/-- A number with `k` zeros in front of the point only has to be small enough. -/
theorem fits_power : Fits precision scale (m * 10 ^ k) ↔ m * 10 ^ k < 10 ^ (precision - scale) := by
  have hinteger : ∃ j : ℤ, (m * 10 ^ k : ℚ) * 10 ^ scale = j :=
    ⟨m * 10 ^ k * 10 ^ scale, by push_cast; rfl⟩
  rw [Fits, abs_of_nonneg (by positivity), and_iff_right hinteger]
  exact_mod_cast Iff.rfl

/-! ## Numbers of digits

How many digits a number has, and what power of ten it is below, are the same. -/

theorem digits_length_le (hm : 0 < m) : (Text.digits m).length ≤ k ↔ m < 10 ^ k := by
  rcases Nat.eq_zero_or_pos k with rfl | hk
  · have := Nat.length_toDigits_pos (b := 10) (n := m)
    rw [Text.digits, pow_zero]
    omega
  · exact Nat.length_toDigits_le_iff (by decide) hk

/-- Zeros at the end are digits as well. -/
theorem digits_length_add_le {a : ℕ} (hm : 0 < m) :
    (Text.digits m).length + a ≤ k ↔ m * 10 ^ a < 10 ^ k := by
  rcases Nat.lt_or_ge k a with ha | ha
  · have hpow : 10 ^ k < 10 ^ a := Nat.pow_lt_pow_right (by decide) ha
    have hmul : 10 ^ a ≤ m * 10 ^ a := Nat.le_mul_of_pos_left _ hm
    omega
  · obtain ⟨b, rfl⟩ := Nat.exists_eq_add_of_le ha
    rw [Nat.add_comm a b, Nat.pow_add, Nat.mul_lt_mul_right (by positivity), ← digits_length_le hm]
    omega

/-! ## What is counted

`trimPlaces` divides by ten for each zero that it removes (`trimPlaces_eq`), and stops where the
last digit counts or is the only one (`trimPlaces_stop`). -/

theorem trimPlaces_eq (n : ℕ) (scale : ℤ) : ∃ t : ℕ, scale = (trimPlaces n scale).2 + t ∧
    n = (trimPlaces n scale).1 * 10 ^ t := by
  fun_induction trimPlaces n scale with
  | case1 n scale h ih =>
      obtain ⟨t, hscale, hn⟩ := ih
      refine ⟨t + 1, by push_cast; omega, ?_⟩
      rw [pow_succ, ← Nat.mul_assoc, ← hn]
      omega
  | case2 n scale h => exact ⟨0, by simp, by simp⟩

theorem trimPlaces_stop (n : ℕ) (scale : ℤ) :
    ¬(0 < (trimPlaces n scale).2 ∧ 10 ≤ (trimPlaces n scale).1 ∧
      (trimPlaces n scale).1 % 10 = 0) := by
  fun_induction trimPlaces n scale with
  | case1 n scale h ih => exact ih
  | case2 n scale h => exact h

theorem trimPlaces_nonneg {n : ℕ} {scale : ℤ} (h : 0 ≤ scale) : 0 ≤ (trimPlaces n scale).2 := by
  fun_induction trimPlaces n scale with
  | case1 n scale _ ih => exact ih (by omega)
  | case2 => exact h

theorem abs_toRat (d : Decimal) : |d.toRat| = d.unscaled.natAbs * 10 ^ (-d.scale) := by
  rw [toRat, abs_mul, abs_of_nonneg (zpow_nonneg (by norm_num : (0 : ℚ) ≤ 10) _), Nat.cast_natAbs,
    Int.cast_abs]

/-! ## The check

The three cases of `excess?_eq_none` are the numbers that are too long to be counted, zero, and all
others. In the first the count is wrong, in the second the zeros are counted. -/

/-- What a column takes for zero: with `places` behind the point as many as it has, without them as
many digits as it has in front, the zeros of an exponent among them. -/
def ZeroFits (precision scale : ℕ) (places : ℤ) : Prop :=
  if 0 < places then places ≤ scale else 1 - places ≤ precision - scale

instance (precision scale : ℕ) (places : ℤ) : Decidable (ZeroFits precision scale places) :=
  inferInstanceAs
    (Decidable (if 0 < places then places ≤ scale else 1 - places ≤ precision - scale))

/-- The number of digits in front of the point, of a number with zeros there. -/
def front (d : Decimal) : ℤ :=
  d.digits.length - d.scale

/-- The number has more digits than a word of 64 bits can count. -/
def IsVast (d : Decimal) : Prop :=
  d.scale < 0 ∧ 2 ^ 63 ≤ d.front

instance (d : Decimal) : Decidable d.IsVast :=
  inferInstanceAs (Decidable (_ ∧ _))

theorem excess?_eq_none_iff {d : Decimal} {limits : Facets}
    (hprecision : limits.precision = some precision) (hscale : limits.scale = some scale) :
    d.excess? limits = none ↔
      d.extent.2 ≤ scale ∧ d.extent.1 ≤ precision - scale + d.extent.2 := by
  simp only [excess?, hprecision, hscale, Option.bind_some]
  split_ifs <;> simp <;> omega

/-- A number with zeros in front of the point is left as it is, and its zeros are counted, in a
word of 64 bits. -/
theorem extent_of_neg {d : Decimal} (h : d.scale < 0) : d.extent = (d.front.bmod (2 ^ 64), 0) := by
  have htrim : trimPlaces d.unscaled.natAbs d.scale = (d.unscaled.natAbs, d.scale) := by
    rw [trimPlaces, dif_neg (by omega)]
  rw [extent, htrim]
  simp only [if_pos h, front, digits]
  rw [max_eq_right h.le]

theorem extent_of_nonneg {d : Decimal} (h : 0 ≤ d.scale) :
    d.extent = (max ((Text.digits (trimPlaces d.unscaled.natAbs d.scale).1).length : ℤ)
      (trimPlaces d.unscaled.natAbs d.scale).2, (trimPlaces d.unscaled.natAbs d.scale).2) := by
  have hplaces := trimPlaces_nonneg (n := d.unscaled.natAbs) h
  rw [extent]
  simp only [if_neg (Int.not_lt.mpr hplaces)]
  rw [max_eq_left hplaces]

/-- **What the check takes.** The count of digits wraps around in a word of 64 bits, and is
compared as it is then. Zero is taken by `ZeroFits`, all other numbers if the column `Fits` them. -/
theorem excess?_eq_none {d : Decimal} {limits : Facets}
    (hprecision : limits.precision = some precision) (hscale : limits.scale = some scale)
    (hle : scale ≤ precision) : d.excess? limits = none ↔
      if d.IsVast then d.front.bmod (2 ^ 64) ≤ precision - scale
      else if d.unscaled = 0 then ZeroFits precision scale d.scale
      else Fits precision scale d.toRat := by
  rw [excess?_eq_none_iff hprecision hscale]
  -- Zeros behind the point are taken off, those in front of it are counted.
  rcases Int.lt_or_le d.scale 0 with hneg | hnonneg
  · rw [extent_of_neg hneg]
    split
    next => omega
    next hvast =>
      obtain ⟨k, hk⟩ : ∃ k : ℕ, d.scale = -k := ⟨d.scale.natAbs, by omega⟩
      have hfront : d.front = d.digits.length + k := by rw [front, hk, sub_neg_eq_add]
      have hcount : d.front < 2 ^ 63 := by
        by_contra h
        exact hvast ⟨hneg, Int.not_lt.mp h⟩
      rw [Int.bmod_eq_of_le (by omega) (by omega)]
      have hfits :
          (if d.unscaled = 0 then ZeroFits precision scale d.scale
            else Fits precision scale d.toRat) ↔
          d.digits.length + k ≤ precision - scale := by
        split
        next hzero =>
          have hone : d.digits = ['0'] := by rw [digits, hzero]; rfl
          rw [ZeroFits, if_neg (by omega), hone, hk, List.length_singleton]
          omega
        next hzero =>
          rw [← fits_abs, abs_toRat, hk, neg_neg, zpow_natCast, fits_power, digits,
            digits_length_add_le (by omega)]
      rw [hfits]
      omega
  · have hvast : ¬d.IsVast := fun h => absurd h.1 (Int.not_lt.mpr hnonneg)
    rw [extent_of_nonneg hnonneg, if_neg hvast]
    split
    next hzero =>
      have htrim : trimPlaces d.unscaled.natAbs d.scale = (0, d.scale) := by
        rw [hzero, Int.natAbs_zero, trimPlaces, dif_neg (by omega)]
      have hone : (Text.digits 0).length = 1 := rfl
      rw [htrim, hone, ZeroFits]
      split <;> omega
    next hzero =>
      obtain ⟨t, ht, hm⟩ := trimPlaces_eq d.unscaled.natAbs d.scale
      have hstop := trimPlaces_stop d.unscaled.natAbs d.scale
      obtain ⟨k, hk⟩ := Int.eq_ofNat_of_zero_le (trimPlaces_nonneg (n := d.unscaled.natAbs) hnonneg)
      generalize (trimPlaces d.unscaled.natAbs d.scale).1 = m at *
      rw [hk] at ht hstop ⊢
      have hpos : 0 < m := Nat.pos_of_ne_zero fun h => hzero (by rw [h, Nat.zero_mul] at hm; omega)
      have hvalue : |d.toRat| = m / 10 ^ k := by
        have hten : (10 : ℚ) ^ t ≠ 0 := by positivity
        rw [abs_toRat, hm, ht, Nat.cast_mul, Nat.cast_pow, Nat.cast_ofNat, neg_add,
          zpow_add₀ (by norm_num), zpow_neg, zpow_neg, zpow_natCast, zpow_natCast]
        field_simp
      rw [← fits_abs, hvalue, fits_places (by omega), ← digits_length_le hpos]
      omega

end FilterSql.Decimal
