import Mathlib.Algebra.Order.Field.Power
import Mathlib.Algebra.Order.Floor.Semifield
import Mathlib.Data.Int.Log
import Mathlib.Data.Rat.Floor
import Mathlib.Tactic.Positivity
import Restyle.Decimal.Shortest

/-!
# Decimals as rational numbers

The comparisons, quotients and powers with which decimals are searched for are exact. Here each has
its meaning as a rational number: `Decimal.toRat` is the value of a decimal, `Decimal.compare_eq`
and `Decimal.floorOf_eq` say what is compared and what is rounded down, and
`Decimal.leadingExponent_eq` where the leading digit stands. A decimal without zeros at its end is
the only one of its value: `Decimal.eq_of_toRat_eq`.
-/

namespace Restyle.Decimal

variable {num den : Nat} {decimal : Decimal}

/-- The value of a decimal. -/
def toRat (decimal : Decimal) : ℚ :=
  decimal.digits * 10 ^ decimal.scale

theorem ten_zpow_pos (scale : Int) : (0 : ℚ) < 10 ^ scale :=
  zpow_pos (by norm_num) scale

/-! ## Comparing and rounding down -/

theorem compare_eq (decimal : Decimal) (hpos : 0 < den) :
    decimal.compare num den = cmp decimal.toRat (num / den) := by
  have hden : (0 : ℚ) < den := Nat.cast_pos.mpr hpos
  -- Both sides are multiplied by a number that makes them whole.
  have hscaled : ∀ (factor : ℚ) (left right : Nat), 0 < factor → decimal.toRat * factor = left →
      (num / den : ℚ) * factor = right →
      Ord.compare left right = cmp decimal.toRat (num / den) := by
    intro factor left right hfactor hleft hright
    rw [← cmp_mul_pos_right hfactor, hleft, hright, Nat.strictMono_cast.cmp_map_eq, cmp_eq_compare]
  rw [compare]
  by_cases h : 0 ≤ decimal.scale
  · obtain ⟨places, hplaces⟩ := Int.eq_ofNat_of_zero_le h
    rw [if_pos h]
    refine hscaled den _ _ hden ?_ (div_mul_cancel₀ _ hden.ne')
    rw [toRat, hplaces, Nat.pow_eq]
    push_cast
    rfl
  · obtain ⟨places, hplaces⟩ : ∃ places : Nat, decimal.scale = -places :=
      ⟨(-decimal.scale).toNat, by omega⟩
    have hpower : (0 : ℚ) < 10 ^ places := by positivity
    rw [if_neg h, hplaces, neg_neg, Int.toNat_natCast, Nat.pow_eq]
    refine hscaled (10 ^ places * den) _ _ (mul_pos hpower hden) ?_ ?_
    · rw [toRat, hplaces, zpow_neg, zpow_natCast]
      push_cast
      field_simp
    · push_cast
      field_simp

theorem floorOf_eq (num den : Nat) (scale : Int) :
    floorOf num den scale = ⌊(num / den : ℚ) / 10 ^ scale⌋₊ := by
  unfold floorOf
  split
  next h =>
    obtain ⟨places, rfl⟩ := Int.eq_ofNat_of_zero_le h
    rw [Nat.pow_eq, div_div, ← Nat.floor_div_eq_div (K := ℚ)]
    push_cast
    rfl
  next h =>
    obtain ⟨places, rfl⟩ : ∃ places : Nat, scale = -places := ⟨(-scale).toNat, by omega⟩
    rw [neg_neg, Nat.pow_eq, zpow_neg, div_inv_eq_mul,
      div_mul_eq_mul_div, ← Nat.floor_div_eq_div (K := ℚ)]
    push_cast
    rfl

/-! ## The leading digit -/

/-- How far a quotient has to move to reach one, if the fuel is enough. -/
theorem placesToOne_bounds {fuel : Nat} (h : den ≤ num * 10 ^ fuel) :
    den ≤ num * 10 ^ placesToOne fuel num den ∧ (placesToOne fuel num den = 0 ∨
        num * 10 ^ placesToOne fuel num den < 10 * den) := by
  induction fuel generalizing num with
  | zero => exact ⟨h, .inl rfl⟩
  | succ fuel ih =>
    rw [placesToOne]
    split
    next hle => exact ⟨by rwa [Nat.pow_zero, Nat.mul_one], .inl rfl⟩
    next hlt =>
      rw [Nat.pow_succ', ← Nat.mul_assoc] at h
      obtain ⟨hreach, hbound⟩ := ih h
      rw [Nat.pow_succ', ← Nat.mul_assoc]
      refine ⟨hreach, .inr ?_⟩
      rcases hbound with hzero | hbound
      · rw [hzero]
        omega
      · exact hbound

theorem length_toDigits {number : Nat} (h : number ≠ 0) :
    (Nat.toDigits 10 number).length = Nat.log 10 number + 1 := by
  have hhigh := Nat.lt_pow_succ_log_self (b := 10) (by omega) number
  have hlow := Nat.pow_log_le_self 10 h
  refine Nat.le_antisymm ((Nat.length_toDigits_le_iff (by omega) (by omega)).mpr hhigh) ?_
  rcases Nat.eq_zero_or_pos (Nat.log ..) with hzero | hpos
  · rw [hzero]
    exact Nat.length_toDigits_pos
  · by_contra hshort
    have := (Nat.length_toDigits_le_iff (b := 10) (n := number) (by omega) hpos).mp (by omega)
    omega

/-- The exponent of the leading digit, for a quotient that is not too small. -/
theorem leadingExponent_eq (hpos : 0 < den) (h : den ≤ num * 10 ^ 400) :
    leadingExponent num den = Int.log 10 (num / den : ℚ) := by
  have hden : (0 : ℚ) < den := Nat.cast_pos.mpr hpos
  unfold leadingExponent
  split
  next hle =>
    have hone : (1 : ℚ) ≤ num / den := (one_le_div hden).mpr (Nat.cast_le.mpr hle)
    have hne : num / den ≠ 0 := (Nat.div_pos hle hpos).ne'
    rw [length_toDigits hne, Int.log_of_one_le_right 10 hone, Nat.floor_div_eq_div]
    omega
  next hlt =>
    obtain ⟨hreach, hbound⟩ := placesToOne_bounds h
    generalize placesToOne 400 num den = places at hreach hbound
    have hmoved : num * 10 ^ places < 10 * den := by
      rcases hbound with hzero | hbound
      · rw [hzero] at hreach
        omega
      · exact hbound
    have hnum : 0 < num := by
      by_contra hzero
      omega
    have hquotient : (0 : ℚ) < num / den := div_pos (Nat.cast_pos.mpr hnum) hden
    have hlow : ((10 : Nat) : ℚ) ^ (-(places : Int)) ≤ num / den := by
      rw [zpow_neg, inv_eq_one_div, div_le_div_iff₀ (by positivity) hden]
      exact_mod_cast (Nat.one_mul den).le.trans hreach
    have hhigh : (num / den : ℚ) < ((10 : Nat) : ℚ) ^ (-(places : Int) + 1) := by
      rw [zpow_add_one₀ (by norm_num), zpow_neg, inv_mul_eq_div,
        div_lt_div_iff₀ hden (by positivity)]
      exact_mod_cast hmoved
    have hle := (Int.zpow_le_iff_le_log (by omega) hquotient).mp hlow
    have hlt := (Int.lt_zpow_iff_log_lt (by omega) hquotient).mp hhigh
    omega

/-! ## Zeros at the end -/

theorem toRat_stripZeros (fuel : Nat) (decimal : Decimal) :
    (decimal.stripZeros fuel).toRat = decimal.toRat := by
  induction fuel generalizing decimal with
  | zero => rfl
  | succ fuel ih =>
    rw [stripZeros]
    split
    next h =>
      have hdigits : decimal.digits = 10 * (decimal.digits / 10) := by
        simp only [Bool.and_eq_true, bne_iff_ne, beq_iff_eq] at h
        omega
      have hcast : (decimal.digits : ℚ) = 10 * (decimal.digits / 10 : Nat) := by
        exact_mod_cast hdigits
      rw [ih, toRat, toRat, zpow_add_one₀ (by norm_num), hcast]
      ring
    · rfl

theorem scale_le_stripZeros (fuel : Nat) (decimal : Decimal) :
    decimal.scale ≤ (decimal.stripZeros fuel).scale := by
  induction fuel generalizing decimal with
  | zero => exact Int.le_refl _
  | succ fuel ih =>
    rw [stripZeros]
    split
    · exact (Int.le_add_one (Int.le_refl _)).trans (ih _)
    · exact Int.le_refl _

/-- No zero is left at the end, if there is fuel for all digits but one. -/
theorem stripZeros_mod_ten {fuel : Nat} (hne : decimal.digits ≠ 0)
    (hlt : decimal.digits < 10 ^ (fuel + 1)) : (decimal.stripZeros fuel).digits % 10 ≠ 0 := by
  induction fuel generalizing decimal with
  | zero =>
    show decimal.digits % 10 ≠ 0
    omega
  | succ fuel ih =>
    rw [stripZeros]
    split
    next h =>
      simp only [Bool.and_eq_true, bne_iff_ne, beq_iff_eq] at h
      refine ih ?_ ?_
      · show decimal.digits / 10 ≠ 0
        omega
      · show decimal.digits / 10 < 10 ^ (fuel + 1)
        omega
    next h =>
      simp only [Bool.and_eq_true, bne_iff_ne, beq_iff_eq, not_and] at h
      exact h hne

variable {other : Decimal}

/-- Of two decimals of one value the one with the smaller scale has the more zeros. -/
theorem digits_eq_of_toRat_eq (h : decimal.toRat = other.toRat)
    (hle : decimal.scale ≤ other.scale) :
    decimal.digits = other.digits * 10 ^ (other.scale - decimal.scale).toNat := by
  obtain ⟨places, hplaces⟩ := Int.eq_ofNat_of_zero_le (Int.sub_nonneg_of_le hle)
  have hscale : other.scale = places + decimal.scale := by omega
  have hvalue : (decimal.digits : ℚ) = other.digits * 10 ^ places := by
    apply mul_right_cancel₀ (ten_zpow_pos decimal.scale).ne'
    rw [toRat, toRat, hscale, zpow_add₀ (by norm_num), ← mul_assoc] at h
    exact h
  rw [hplaces]
  exact_mod_cast hvalue

/-- A decimal without zeros at the end has the greatest scale of its value. -/
theorem scale_le_of_toRat_eq (h : decimal.toRat = other.toRat) (hmod : decimal.digits % 10 ≠ 0) :
    other.scale ≤ decimal.scale := by
  by_contra hlt
  have hdigits := digits_eq_of_toRat_eq h (by omega)
  obtain ⟨places, hplaces⟩ : ∃ places, (other.scale - decimal.scale).toNat = places + 1 :=
    ⟨(other.scale - decimal.scale).toNat - 1, by omega⟩
  rw [hplaces, Nat.pow_succ, ← Nat.mul_assoc] at hdigits
  omega

/-- Two decimals of one value without zeros at the end are the same. -/
theorem eq_of_toRat_eq (h : decimal.toRat = other.toRat) (hdecimal : decimal.digits % 10 ≠ 0)
    (hother : other.digits % 10 ≠ 0) : decimal = other := by
  have hscale : decimal.scale = other.scale :=
    Int.le_antisymm (scale_le_of_toRat_eq h.symm hother) (scale_le_of_toRat_eq h hdecimal)
  have hdigits := digits_eq_of_toRat_eq h hscale.le
  rw [hscale, Int.sub_self, Int.toNat_zero, Nat.pow_zero, Nat.mul_one] at hdigits
  cases decimal
  cases other
  simp_all only

end Restyle.Decimal
