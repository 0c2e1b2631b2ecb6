import FilterSql.Proofs.Decimal.Numeral
import FilterSql.Value.Basic
import Mathlib.Tactic.Positivity

/-!
# Equal values

What `Value.same` and `Value.sameHash` decide. Two values are the same when they are of one kind
and equal in it (`Value.Same`); decimals and floating point numbers count as the numbers that they
are, in whatever way they are written. So `Value.same` is an equivalence. Equal values have one
hash, but for the two zeros of floating point, whose signs the hash tells apart
(`Value.same_hash`).
-/

namespace FilterSql

/-! ## Decimal numbers

`Decimal.normal` writes a number without zeros at its end. A number has one such form, so comparing
the forms compares the numbers. -/

namespace Decimal

variable {a b d : Decimal}

theorem stripZeros_eq (n : ℕ) : n = (stripZeros n).1 * 10 ^ (stripZeros n).2 := by
  fun_induction stripZeros n with
  | case1 n h => simp
  | case2 n h m k hstrip ih =>
      rw [hstrip] at ih
      rw [pow_succ, ← Nat.mul_assoc, ← ih]
      omega

theorem stripZeros_stop {n : ℕ} (hn : n ≠ 0) : (stripZeros n).1 % 10 ≠ 0 := by
  fun_induction stripZeros n with
  | case1 n h => exact h.resolve_left hn
  | case2 n h m k hstrip ih =>
      rw [hstrip] at ih
      exact ih (by omega)

/-- A number without zeros at its end, and zero without decimal places: what `Decimal.normal`
gives. -/
structure IsNormal (d : Decimal) : Prop where
  zero : d.unscaled = 0 → d.scale = 0
  digits : d.unscaled ≠ 0 → d.unscaled % 10 ≠ 0

theorem isNormal_normal (d : Decimal) : d.normal.IsNormal := by
  unfold normal
  split
  · exact ⟨fun _ => rfl, fun h => absurd rfl h⟩
  · rename_i hne
    have hstop := stripZeros_stop (Int.natAbs_ne_zero.mpr hne)
    constructor <;> intro h <;> dsimp only at h ⊢ <;> split at h <;> omega

/-- If `b` has `k` decimal places more than `a`, the two are one number exactly if `b` has `k`
zeros more. -/
theorem toRat_eq_iff {k : ℕ} (hscale : b.scale = a.scale + k) :
    a.toRat = b.toRat ↔ a.unscaled * 10 ^ k = b.unscaled := by
  have hten : (10 : ℚ) ≠ 0 := by norm_num
  have hpow : (10 : ℚ) ^ (-b.scale) ≠ 0 := zpow_ne_zero _ hten
  have hplaces : (10 : ℚ) ^ (-a.scale) = 10 ^ k * 10 ^ (-b.scale) := by
    rw [← zpow_natCast, ← zpow_add₀ hten, hscale]
    congr 1
    omega
  rw [toRat, toRat, hplaces, ← mul_assoc, mul_left_inj' hpow]
  exact_mod_cast Iff.rfl

theorem toRat_normal (d : Decimal) : d.normal.toRat = d.toRat := by
  unfold normal
  split
  next hzero => simp [toRat, hzero]
  next hne =>
    have heq := stripZeros_eq d.unscaled.natAbs
    apply (toRat_eq_iff (k := (stripZeros d.unscaled.natAbs).2) (by simp)).mpr
    dsimp only
    zify at heq
    split
    next hneg => rw [neg_mul, ← heq, abs_of_neg hneg, neg_neg]
    next hpos => rw [← heq, abs_of_nonneg (not_lt.mp hpos)]

/-- A number has only one normal form. -/
theorem IsNormal.unique (ha : a.IsNormal) (hb : b.IsNormal) (h : a.toRat = b.toRat) : a = b := by
  -- The one with fewer places has the digits of the other without the zeros at their end, and there
  -- are none.
  wlog hle : a.scale ≤ b.scale generalizing a b
  · exact (this hb ha h.symm (le_of_not_ge hle)).symm
  obtain ⟨k, hk⟩ := Int.le.dest hle
  have heq := (toRat_eq_iff hk.symm).mp h
  cases k with
  | zero =>
      have hscale : a.scale = b.scale := by simpa using hk
      have hunscaled : a.unscaled = b.unscaled := by simpa using heq
      cases a
      cases b
      simp_all
  | succ k =>
      rw [pow_succ, ← mul_assoc] at heq
      have hb0 : b.unscaled = 0 := by
        by_contra hne
        exact hb.digits hne (by omega)
      have ha0 : a.unscaled = 0 := by
        rw [hb0] at heq
        simpa using heq
      rw [ha.zero ha0, hb.zero hb0] at hk
      omega

/-- `Decimal.sameNumber` compares the numbers and not their spellings. -/
theorem sameNumber_iff : a.sameNumber b = true ↔ a.toRat = b.toRat := by
  rw [sameNumber, beq_iff_eq]
  constructor
  · intro h
    rw [← toRat_normal a, h, toRat_normal]
  · intro h
    apply (isNormal_normal a).unique (isNormal_normal b)
    rw [toRat_normal, toRat_normal, h]

end Decimal

/-! ## Floating point numbers

`Binary64.sameNumber` compares bits. To say which numbers are equal, a magnitude is counted in
units of the least positive number. -/

namespace Binary64

/-- The least positive number that a double can be. -/
def least : ℚ :=
  2 ^ (-1074 : ℤ)

/-- The number that `magnitude` stands for, counted in units of `least`. Below `2 ^ 52` the
magnitude is the count itself; from there on the upper bits shift the lower ones. -/
def units (magnitude : ℕ) : ℕ :=
  if magnitude / 2 ^ 52 = 0 then magnitude % 2 ^ 52
  else (2 ^ 52 + magnitude % 2 ^ 52) * 2 ^ (magnitude / 2 ^ 52 - 1)

/-- The rational number that `x` is, infinities and NaN aside: `x.parts` scales an integer by a
power of two. -/
def toRat (x : Binary64) : ℚ :=
  (if x.negative then -1 else 1) * (x.parts.1 * 2 ^ x.parts.2)

/-- The greater exponent has the greater number, whatever the fractions are. -/
theorem units_lt {m n : ℕ} (h : m / 2 ^ 52 < n / 2 ^ 52) : units m < units n := by
  obtain ⟨e, he⟩ : ∃ e, n / 2 ^ 52 = e + 1 := ⟨n / 2 ^ 52 - 1, by omega⟩
  -- The least number of the larger exponent stands between the two.
  have hn : 2 ^ 52 * 2 ^ e ≤ units n := by
    rw [units, if_neg (by omega), he, Nat.add_sub_cancel]
    exact Nat.mul_le_mul_right _ (Nat.le_add_right _ _)
  apply Nat.lt_of_lt_of_le _ hn
  have hfraction : m % 2 ^ 52 < 2 ^ 52 := Nat.mod_lt _ (by positivity)
  by_cases hm : m / 2 ^ 52 = 0
  · rw [units, if_pos hm]
    exact Nat.lt_of_lt_of_le hfraction (Nat.le_mul_of_pos_right _ (by positivity))
  · rw [units, if_neg hm]
    calc (2 ^ 52 + m % 2 ^ 52) * 2 ^ (m / 2 ^ 52 - 1)
        < (2 ^ 52 + 2 ^ 52) * 2 ^ (m / 2 ^ 52 - 1) :=
          Nat.mul_lt_mul_of_pos_right (Nat.add_lt_add_left hfraction _) (by positivity)
      _ = 2 ^ 52 * 2 ^ (m / 2 ^ 52 - 1 + 1) := by ring
      _ ≤ 2 ^ 52 * 2 ^ e := Nat.mul_le_mul_left _ (Nat.pow_le_pow_right (by decide) (by omega))

theorem units_injective {m n : ℕ} (h : units m = units n) : m = n := by
  rcases Nat.lt_trichotomy (m / 2 ^ 52) (n / 2 ^ 52) with hlt | heq | hgt
  · exact absurd h (Nat.ne_of_lt (units_lt hlt))
  · have hfraction : m % 2 ^ 52 = n % 2 ^ 52 := by
      rw [units, units, heq] at h
      split at h
      · exact h
      · exact Nat.add_left_cancel (Nat.eq_of_mul_eq_mul_right (by positivity) h)
    rw [← Nat.div_add_mod m (2 ^ 52), ← Nat.div_add_mod n (2 ^ 52), heq, hfraction]
  · exact absurd h.symm (Nat.ne_of_lt (units_lt hgt))

theorem toRat_eq (x : Binary64) :
    x.toRat = (if x.negative then -1 else 1) * (units x.magnitude * least) := by
  rw [toRat, parts, units]
  congr 1
  split
  next => rfl
  next hne =>
    have hexponent : ((x.magnitude / 2 ^ 52 : ℕ) : ℤ) - 1075 =
      ((x.magnitude / 2 ^ 52 - 1 : ℕ) : ℤ) + -1074 := by
      omega
    rw [hexponent, zpow_add₀ (by norm_num), zpow_natCast, Nat.cast_mul, Nat.cast_pow, mul_assoc]
    rfl

theorem units_eq_zero {m : ℕ} : units m = 0 ↔ m = 0 := by
  have hzero : units 0 = 0 := rfl
  exact ⟨fun h => units_injective (h.trans hzero.symm), fun h => h ▸ hzero⟩

/-- Numbers of one sign are told apart by their magnitudes. Those of different signs have only zero
in common. -/
theorem toRat_eq_iff {x y : Binary64} :
    x.toRat = y.toRat ↔ x.magnitude = y.magnitude ∧
    (x.negative = y.negative ∨ x.magnitude = 0) := by
  have hleast : least ≠ 0 := zpow_ne_zero _ (by norm_num)
  have hsame : (units x.magnitude : ℚ) = units y.magnitude ↔ x.magnitude = y.magnitude :=
    ⟨fun h => units_injective (by exact_mod_cast h), fun h => by rw [h]⟩
  have hopposite : (units x.magnitude : ℚ) = -units y.magnitude ↔
    x.magnitude = y.magnitude ∧ x.magnitude = 0 := by
    rw [eq_neg_iff_add_eq_zero]
    norm_cast
    rw [Nat.add_eq_zero_iff, units_eq_zero, units_eq_zero]
    omega
  rw [toRat_eq, toRat_eq, ← mul_assoc, ← mul_assoc, mul_left_inj' hleast]
  cases x.negative <;> cases y.negative <;> simp [hsame, neg_eq_iff_eq_neg, hopposite]

/-- `Binary64.sameNumber` compares the numbers and not their bits. -/
theorem sameNumber_iff {x y : Binary64} : x.sameNumber y = true ↔ x.toRat = y.toRat := by
  rw [toRat_eq_iff]
  obtain ⟨xnegative, xmagnitude, hx⟩ := x
  obtain ⟨ynegative, ymagnitude, hy⟩ := y
  simp only [sameNumber, isZero, Bool.or_eq_true, Bool.and_eq_true, beq_iff_eq, mk.injEq]
  cases xnegative <;> cases ynegative <;> simp <;> omega

end Binary64

/-! ## Values

`Value.Same` says what `Value.same` decides, and `Value.hashed` is what the hash of a value is
taken of. -/

namespace Value

/-- Of one kind and equal in it. Decimals and floating point numbers are compared as the numbers
that they are. -/
def Same : Value → Value → Prop
  | float x, float y => x.toRat = y.toRat
  | decimal a, decimal b => a.toRat = b.toRat
  | a, b => a = b

/-- The zeros of floating point, one of each sign. -/
def OppositeZeros : Value → Value → Prop
  | float x, float y => x.isZero ∧ y.isZero ∧ x.negative ≠ y.negative
  | _, _ => False

theorem same_iff {a b : Value} : a.same b = true ↔ a.Same b := by
  fun_cases Same a b with
  | case1 x y => exact Binary64.sameNumber_iff
  | case2 a b => exact Decimal.sameNumber_iff
  | case3 a b hfloat hdecimal => rw [same.eq_3 a b hfloat hdecimal, beq_iff_eq]

theorem same_equivalence : Equivalence fun a b : Value => a.same b = true where
  refl a := by
    rw [same_iff]
    cases a <;> rfl
  symm {a b} hab := by
    rw [same_iff] at hab ⊢
    cases a <;> cases b <;> simp_all [Same]
  trans {a b c} hab hbc := by
    rw [same_iff] at hab hbc ⊢
    cases a <;> cases b <;> cases c <;> simp_all [Same]

theorem sameHash_iff {a b : Value} : a.sameHash b = true ↔ a.hashed = b.hashed :=
  beq_iff_eq

/-- Equal decimals are hashed alike, since `Value.hashed` takes their normal form. -/
theorem hashed_decimal {a b : Decimal} (h : a.sameNumber b = true) :
    (decimal a).hashed = (decimal b).hashed := by
  have hnormal : a.normal = b.normal := beq_iff_eq.mp h
  rw [hashed, hashed, Decimal.withoutPoint, Decimal.withoutPoint, hnormal]

/-- Equal floating point numbers are hashed alike, unless they are `OppositeZeros`. -/
theorem hashed_float {x y : Binary64} (h : x.sameNumber y = true) :
    (float x).hashed = (float y).hashed ↔ ¬ (float x).OppositeZeros (float y) := by
  rw [Binary64.sameNumber_iff, Binary64.toRat_eq_iff] at h
  obtain ⟨xnegative, xmagnitude, hx⟩ := x
  obtain ⟨ynegative, ymagnitude, hy⟩ := y
  obtain ⟨rfl, hsign⟩ := h
  simp only [hashed, OppositeZeros, Binary64.isZero, float.injEq, Binary64.mk.injEq, beq_iff_eq]
    at hsign ⊢
  tauto

/-- Values that are the same have one hash, unless they are `OppositeZeros`. -/
theorem sameHash_iff_of_same {a b : Value} (h : a.same b = true) :
    a.sameHash b = true ↔ ¬ a.OppositeZeros b := by
  rw [sameHash_iff]
  fun_cases Same a b with
  | case1 x y => exact hashed_float h
  | case2 a b => simp [hashed_decimal h, OppositeZeros]
  | case3 a b hfloat hdecimal =>
      obtain rfl : a = b := by
        rw [same.eq_3 a b hfloat hdecimal] at h
        exact beq_iff_eq.mp h
      cases a with
      | float x => exact absurd rfl (hfloat x x rfl)
      | _ => simp [OppositeZeros]

/-- **Equality is an equivalence that hashing respects but for one pair**: `Value.same` is
reflexive, symmetric and transitive, and two values that it takes for the same have one hash
exactly if they are not `OppositeZeros`. -/
theorem same_hash (a b c : Value) :
    a.same a = true ∧ (a.same b = true → b.same a = true) ∧
      (a.same b = true → b.same c = true → a.same c = true) ∧
      (a.same b = true → (a.sameHash b = true ↔ ¬ a.OppositeZeros b)) :=
  ⟨same_equivalence.refl a, same_equivalence.symm, same_equivalence.trans, sameHash_iff_of_same⟩

/-- `1.50` and `1.5` are one key of a map. The two zeros of floating point are equal and yet two
keys. -/
theorem sameHash_spellings_not_zeros :
    (decimal ⟨150, 2⟩).sameHash (decimal ⟨15, 1⟩) = true ∧
      (float ⟨false, 0, by decide⟩).same (float ⟨true, 0, by decide⟩) = true ∧
      (float ⟨false, 0, by decide⟩).sameHash (float ⟨true, 0, by decide⟩) = false := by
  have hspellings : (decimal ⟨150, 2⟩).same (decimal ⟨15, 1⟩) = true := by
    rw [same_iff]
    norm_num [Same, Decimal.toRat]
  have hzeros : (float ⟨false, 0, by decide⟩).same (float ⟨true, 0, by decide⟩) = true := by decide
  have hhash {a b : Value} (h : a.same b = true) : a.sameHash b = true ↔ ¬ a.OppositeZeros b :=
    (same_hash a b b).2.2.2 h
  refine ⟨(hhash hspellings).mpr (by simp [OppositeZeros]), hzeros,
    Bool.eq_false_iff.mpr fun h => ?_⟩
  exact (hhash hzeros).mp h (by simp [OppositeZeros, Binary64.isZero])

end Value

end FilterSql
