import Mathlib.Data.Rat.Cast.Defs
import Mathlib.Tactic.FieldSimp
import Mathlib.Tactic.NormNum
import Mathlib.Tactic.Ring
import MarketWire.Real

/-! The decimals that reals stand for.

A real with a power of ten or a power of two as its hint is a decimal that fits, whatever its mantissa: seven more
digits in front or eight more places behind a number of 64 bits stay below 96 bits. So an arithmetic that is exact
whenever it can be gives it.
-/

set_option autoImplicit false

namespace MarketWire

namespace Decimal

def value (d : Decimal) : ℚ := d.coefficient / 10 ^ d.scale

@[simp] theorem value_whole (n : Int) : (whole n).value = n := by
  rw [value, whole, pow_zero, div_one]

/-- Every operation has an exact answer that fits, whenever there is one. -/
structure Arithmetic.IsExact (arithmetic : Arithmetic) : Prop where
  product : ∀ x y answer : Decimal, x.Fits → y.Fits → answer.Fits → answer.value = x.value * y.value →
    ∃ d, arithmetic.product? x y = some d ∧ d.Fits ∧ d.value = answer.value
  quotient : ∀ x y answer : Decimal, x.Fits → y.Fits → answer.Fits → y.coefficient ≠ 0 →
    answer.value = x.value / y.value → ∃ d, arithmetic.quotient? x y = some d ∧ d.Fits ∧ d.value = answer.value

section
variable {numerator denominator : Int} (nonzero : denominator ≠ 0)
include nonzero

theorem value_eq_div_iff {d : Decimal} :
    d.value = numerator / denominator ↔ numerator * 10 ^ d.scale = d.coefficient * denominator := by
  have nonzero' : (denominator : ℚ) ≠ 0 := Int.cast_ne_zero.mpr nonzero
  have ten : (10 : ℚ) ^ d.scale ≠ 0 := pow_ne_zero _ (by norm_num)
  rw [value, div_eq_div_iff ten nonzero', eq_comm]
  exact_mod_cast Iff.rfl

/-- With its own number of places among those that are tried a fraction that is a fitting decimal is found, perhaps with
another number of places. -/
theorem withPlaces?_exact {places : List Nat} {answer : Decimal} (fits : answer.Fits) (listed : answer.scale ∈ places)
    (same : answer.value = numerator / denominator) :
    ∃ d, withPlaces? numerator denominator places = some d ∧ d.Fits ∧ d.value = answer.value := by
  have raised := (value_eq_div_iff nonzero).mp same
  have found : (withPlaces? numerator denominator places).isSome := by
    refine List.findSome?_isSome_iff.mpr ⟨answer.scale, listed, ?_⟩
    change (if (numerator * 10 ^ answer.scale) % denominator = 0 &&
      decide (Decimal.Fits ⟨numerator * 10 ^ answer.scale / denominator, answer.scale⟩) then some _ else none).isSome
    rw [raised, Int.mul_ediv_cancel _ nonzero, Int.mul_emod_left]
    rw [if_pos (by simpa using fits)]
    rfl
  obtain ⟨d, found⟩ := Option.isSome_iff_exists.mp found
  refine ⟨d, found, ?_⟩
  obtain ⟨scale, -, tried⟩ := List.exists_of_findSome?_eq_some found
  dsimp only at tried
  split at tried
  case isFalse => cases tried
  case isTrue divides =>
    cases tried
    simp only [Bool.and_eq_true, decide_eq_true_eq] at divides
    refine ⟨divides.2, same ▸ (value_eq_div_iff nonzero).mpr ?_⟩
    exact (Int.ediv_mul_cancel (Int.dvd_of_emod_eq_zero divides.1)).symm

end

namespace Arithmetic

theorem cast_pow_ten (scale : Nat) : ((Nat.pow 10 scale : Nat) : Int) = 10 ^ scale := by
  rw [Nat.pow_eq]
  norm_cast

theorem isExact_exactly : exactly.IsExact where
  product x y answer fitsX fitsY fits same := by
    have listed : answer.scale ∈ (x.scale + y.scale) :: List.range 29 :=
      List.mem_cons_of_mem _ (List.mem_range.mpr (Nat.lt_succ_of_le fits.2))
    refine withPlaces?_exact ?_ fits listed (same.trans ?_)
    · rw [cast_pow_ten]
      exact pow_ne_zero _ (by decide)
    · rw [cast_pow_ten, value, value]
      push_cast
      rw [pow_add, div_mul_div_comm]
  quotient x y answer fitsX fitsY fits nonzero same := by
    have listed : answer.scale ∈ 0 :: (List.range' 2 27 ++ [1]) := by
      have few := fits.2
      simp only [List.mem_cons, List.mem_append, List.mem_range'_1, List.not_mem_nil]
      omega
    unfold exactly
    dsimp only
    rw [if_neg nonzero]
    refine withPlaces?_exact ?_ fits listed (same.trans ?_)
    · rw [cast_pow_ten]
      exact mul_ne_zero nonzero (pow_ne_zero _ (by decide))
    · rw [cast_pow_ten, cast_pow_ten, value, value]
      push_cast
      field_simp

end Arithmetic

end Decimal

/-! ## Reals -/

namespace RealHint

theorem exponent?_bounds {hint : RealHint} {exponent : Int} (known : hint.exponent? = some exponent) :
    (-14 ≤ exponent ∧ exponent ≤ 7) ∧ hint.isNonFinite = false := by
  unfold exponent? at known
  split at known
  case isTrue few =>
    cases known
    have most : hint.code.toNat ≤ 21 := UInt8.le_iff_toNat_le.mp few
    unfold exponentBias
    refine ⟨by omega, decide_eq_false fun many => ?_⟩
    have least : 33 ≤ hint.code.toNat := UInt8.le_iff_toNat_le.mp many
    omega
  case isFalse => cases known

theorem halvings?_bounds {hint : RealHint} {halvings : Nat} (known : hint.halvings? = some halvings) :
    halvings ≤ 8 ∧ hint.exponent? = none ∧ hint.isNonFinite = false := by
  unfold halvings? at known
  split at known
  case isTrue within =>
    cases known
    simp only [Bool.and_eq_true, decide_eq_true_eq, UInt8.le_iff_toNat_le] at within
    have least : 22 ≤ hint.code.toNat := within.1
    have most : hint.code.toNat ≤ 30 := within.2
    refine ⟨by omega, if_neg fun few => ?_, decide_eq_false fun many => ?_⟩
    · have less : hint.code.toNat ≤ 21 := UInt8.le_iff_toNat_le.mp few
      omega
    · have more : 33 ≤ hint.code.toNat := UInt8.le_iff_toNat_le.mp many
      omega
  case isFalse => cases known

end RealHint

namespace Real

variable {arithmetic : Decimal.Arithmetic} {real : Real}

theorem natAbs_value (real : Real) : real.value.toInt.natAbs ≤ 2 ^ 63 := by
  have least := real.value.le_toInt
  have most := real.value.toInt_lt
  omega

theorem fits_scaled (real : Real) {factor scale : Nat} (small : factor < 2 ^ 33) (few : scale ≤ 28) :
    Decimal.Fits ⟨real.value.toInt * factor, scale⟩ := by
  refine ⟨?_, few⟩
  rw [Int.natAbs_mul, Int.natAbs_natCast]
  calc real.value.toInt.natAbs * factor ≤ 2 ^ 63 * factor := Nat.mul_le_mul_right factor real.natAbs_value
    _ < 2 ^ 63 * 2 ^ 33 := Nat.mul_lt_mul_of_pos_left small (by decide)
    _ = Nat.pow 2 96 := rfl

theorem fits_value (real : Real) {scale : Nat} (few : scale ≤ 28) : Decimal.Fits ⟨real.value.toInt, scale⟩ := by
  have fits := @fits_scaled real 1 scale (by decide) few
  rwa [Nat.cast_one, Int.mul_one] at fits

theorem toDecimalBy?_exponent (sound : arithmetic.IsExact) (filled : real.blank = false) {exponent : Int}
    (known : real.hint.exponent? = some exponent) :
    ∃ d, real.toDecimalBy? arithmetic = some d ∧ d.Fits ∧ d.value = real.value.toInt * 10 ^ exponent ∧
      (exponent ≤ 0 → (d.scale : Int) = -exponent) := by
  obtain ⟨⟨least, most⟩, finite⟩ := RealHint.exponent?_bounds known
  unfold toDecimalBy?
  rw [filled, finite, known]
  simp only [Bool.or_self, Bool.false_eq_true, if_false]
  split
  case isTrue small =>
    obtain ⟨places, rfl⟩ := Int.exists_eq_neg_ofNat small
    refine ⟨_, rfl, real.fits_value (by omega), ?_, fun _ => by dsimp only; omega⟩
    rw [Decimal.value, Int.natAbs_neg, Int.natAbs_natCast, zpow_neg, zpow_natCast, div_eq_mul_inv]
  case isFalse large =>
    obtain ⟨zeros, rfl⟩ := Int.eq_ofNat_of_zero_le (by omega : 0 ≤ exponent)
    have few : 10 ^ zeros ≤ 10 ^ 7 := Nat.pow_le_pow_right (by decide) (by omega)
    have fits := @fits_scaled real (10 ^ zeros) 0 (Nat.lt_of_le_of_lt few (by decide)) (by decide)
    have factor : (Decimal.whole (10 ^ zeros : Nat)).Fits := ⟨Nat.lt_of_le_of_lt few (by decide), Nat.zero_le _⟩
    obtain ⟨d, found, fitting, same⟩ := sound.product (.whole real.value.toInt) (.whole (10 ^ zeros : Nat))
      (.whole (real.value.toInt * (10 ^ zeros : Nat))) (real.fits_value (by decide)) factor fits (by simp)
    refine ⟨d, found, fitting, same.trans (by simp), fun small => absurd small large⟩

theorem toDecimalBy?_halvings (sound : arithmetic.IsExact) (filled : real.blank = false) {halvings : Nat}
    (known : real.hint.halvings? = some halvings) :
    ∃ d, real.toDecimalBy? arithmetic = some d ∧ d.Fits ∧ d.value = real.value.toInt / 2 ^ halvings := by
  obtain ⟨few, noExponent, finite⟩ := RealHint.halvings?_bounds known
  have small : 5 ^ halvings ≤ 5 ^ 8 := Nat.pow_le_pow_right (by decide) few
  have small' : 2 ^ halvings ≤ 2 ^ 8 := Nat.pow_le_pow_right (by decide) few
  unfold toDecimalBy?
  rw [filled, finite, noExponent, RealHint.denominator?, known]
  simp only [Bool.or_self, Bool.false_eq_true, if_false]
  have fits := real.fits_scaled (Nat.lt_of_le_of_lt small (by decide)) (Nat.le_trans few (by decide) : halvings ≤ 28)
  have divisor : (Decimal.whole (2 ^ halvings : Nat)).Fits := ⟨Nat.lt_of_le_of_lt small' (by decide), Nat.zero_le _⟩
  have nonzero : ((2 ^ halvings : Nat) : Int) ≠ 0 := by positivity
  have halved : Decimal.value ⟨real.value.toInt * (5 ^ halvings : Nat), halvings⟩ =
      (Decimal.whole real.value.toInt).value / (Decimal.whole (2 ^ halvings : Nat)).value := by
    rw [Decimal.value, Decimal.value_whole, Decimal.value_whole]
    push_cast
    rw [show (10 : ℚ) = 2 * 5 by norm_num, mul_pow]
    field_simp
  obtain ⟨d, found, fitting, same⟩ := sound.quotient _ _ _ (real.fits_value (by decide)) divisor fits nonzero halved
  refine ⟨d, found, fitting, same.trans (halved.trans (by simp))⟩

/-- A real that is not blank is the exact decimal of its mantissa and its hint, which fits, with as many places as a
power of ten up to one asks for. A blank and a value that is no number have none. -/
theorem toDecimalBy?_exact (sound : arithmetic.IsExact) (real : Real) :
    (real.blank = false → ∀ exponent, real.hint.exponent? = some exponent →
      ∃ d, real.toDecimalBy? arithmetic = some d ∧ d.Fits ∧ d.value = real.value.toInt * 10 ^ exponent ∧
        (exponent ≤ 0 → (d.scale : Int) = -exponent)) ∧
    (real.blank = false → ∀ halvings, real.hint.halvings? = some halvings →
      ∃ d, real.toDecimalBy? arithmetic = some d ∧ d.Fits ∧ d.value = real.value.toInt / 2 ^ halvings) ∧
    (real.blank ∨ real.hint.isNonFinite → real.toDecimalBy? arithmetic = none) := by
  refine ⟨fun filled _ known => toDecimalBy?_exponent sound filled known,
    fun filled _ known => toDecimalBy?_halvings sound filled known, fun missing => ?_⟩
  exact if_pos (Bool.or_eq_true_iff.mpr missing)

/-- The least mantissa with seven zeros behind it, and the greatest one divided by 256. -/
theorem toDecimalBy?_exact_extremes :
    (∃ d, (⟨.minValue, ⟨21⟩, false⟩ : Real).toDecimalBy? .exactly = some d ∧ d.Fits ∧
      d.value = Int64.minValue.toInt * 10 ^ (7 : Int)) ∧
    ∃ d, (⟨.maxValue, ⟨30⟩, false⟩ : Real).toDecimalBy? .exactly = some d ∧ d.Fits ∧
      d.value = Int64.maxValue.toInt / 2 ^ 8 := by
  obtain ⟨d, found, fits, same, -⟩ :=
    (toDecimalBy?_exact Decimal.Arithmetic.isExact_exactly ⟨.minValue, ⟨21⟩, false⟩).1 rfl 7 rfl
  exact ⟨⟨d, found, fits, same⟩,
    (toDecimalBy?_exact Decimal.Arithmetic.isExact_exactly ⟨.maxValue, ⟨30⟩, false⟩).2.1 rfl 8 rfl⟩

end Real

end MarketWire
