import Restyle.Proofs.Decimal.Quotient

/-!
# The number nearest to a quotient

A decimal is read as the number whose mantissa is nearest to it, of two the even one. Here the
interval of a number is one of rational numbers (`Interval.holds_ofMantissa_iff`), a number that is
read lies in its interval (`Binary64.holds_of_ofQuotient`), and a whole number is read as a whole
number (`Binary64.exists_natCast_of_ofQuotient`).
-/

namespace Restyle

open Decimal Decimal.Interval

namespace Decimal.Interval

variable {interval : Interval} {decimal : Decimal} {mantissa : Nat} {exponent : Int} {value : ℚ}

/-- A value lies between the ends of an interval, or on an end that belongs to it. -/
def Holds (interval : Interval) (value : ℚ) : Prop :=
  ((interval.low / interval.denominator : ℚ) < value ∨
    interval.closed ∧ value = interval.low / interval.denominator) ∧
  (value < interval.high / interval.denominator ∨
    interval.closed ∧ value = interval.high / interval.denominator)

theorem contains_iff (hpos : 0 < interval.denominator) :
    interval.contains decimal ↔ interval.Holds decimal.toRat := by
  rw [contains, compare_eq decimal hpos, compare_eq decimal hpos, Bool.and_eq_true]
  refine and_congr ?_ ?_
  · rcases hcmp : cmp decimal.toRat (interval.low / interval.denominator) with _ | _ | _
    · have := cmp_eq_lt_iff _ _ |>.mp hcmp
      simp [this.not_gt, this.ne]
    · have := cmp_eq_eq_iff _ _ |>.mp hcmp
      simp [this]
    · have := cmp_eq_gt_iff _ _ |>.mp hcmp
      simp [this]
  · rcases hcmp : cmp decimal.toRat (interval.high / interval.denominator) with _ | _ | _
    · have := cmp_eq_lt_iff _ _ |>.mp hcmp
      simp [this]
    · have := cmp_eq_eq_iff _ _ |>.mp hcmp
      simp [this]
    · have := cmp_eq_gt_iff _ _ |>.mp hcmp
      simp [this.not_gt, this.ne']

theorem Holds.between {low high : ℚ} (hlow : interval.Holds low) (hhigh : interval.Holds high)
    (hle : low ≤ value) (hle' : value ≤ high) : interval.Holds value := by
  constructor
  · rcases hlow.1 with hlt | ⟨hclosed, heq⟩
    · exact .inl (hlt.trans_le hle)
    · rcases hle.eq_or_lt with hsame | hlt
      · exact .inr ⟨hclosed, hsame ▸ heq⟩
      · exact .inl (heq ▸ hlt)
  · rcases hhigh.2 with hlt | ⟨hclosed, heq⟩
    · exact .inl (hle'.trans_lt hlt)
    · rcases hle'.eq_or_lt with hsame | hlt
      · exact .inr ⟨hclosed, hsame.trans heq⟩
      · exact .inl (hlt.trans_eq heq)

/-- Half of the distance to the next smaller number, in units of the mantissa. -/
def gapBelow (mantissa : Nat) (exponent : Int) : ℚ :=
  if mantissa = 2 ^ 52 ∧ exponent ≠ Binary64.leastExponent then 1 / 4 else 1 / 2

/-- The distance in quarters of a unit, which the mantissa does not fall short of. -/
theorem exists_gap (hpos : 0 < mantissa) (exponent : Int) :
    ∃ gap : Nat, gap ≤ 4 * mantissa ∧ (gap : ℚ) = 4 * gapBelow mantissa exponent ∧
      (if mantissa == Nat.pow 2 52 && exponent != Binary64.leastExponent then 1 else 2) = gap := by
  unfold gapBelow
  refine ⟨_, ?_, ?_, rfl⟩
  · split <;> omega
  · simp only [Bool.and_eq_true, beq_iff_eq, bne_iff_ne, Nat.pow_eq]
    split <;> norm_num

/-- A quarter of a unit as a quotient. -/
theorem exists_quarter (exponent : Int) :
    ∃ factor den : Nat, 0 < den ∧ (factor : ℚ) / den = 2 ^ exponent / 4 ∧
      (if 2 ≤ exponent then (Nat.pow 2 (exponent - 2).toNat, 1)
        else (1, Nat.pow 2 (2 - exponent).toNat)) = (factor, den) := by
  split
  next h =>
    obtain ⟨places, hplaces⟩ := Int.eq_ofNat_of_zero_le (Int.sub_nonneg_of_le h)
    refine ⟨_, _, Nat.one_pos, ?_, rfl⟩
    rw [hplaces, Int.toNat_natCast, Nat.pow_eq, show exponent = places + 2 by omega,
      zpow_add₀ (by norm_num), zpow_natCast]
    push_cast
    ring
  next h =>
    obtain ⟨places, hplaces⟩ := Int.eq_ofNat_of_zero_le (a := 2 - exponent) (by omega)
    refine ⟨_, _, Nat.pow_pos (by omega), ?_, rfl⟩
    rw [hplaces, Int.toNat_natCast, show exponent = 2 - places by omega,
      zpow_sub₀ (by norm_num), zpow_natCast]
    push_cast
    ring

/-- The ends of the interval of a number, and the number between them. -/
theorem bounds_ofMantissa (hpos : 0 < mantissa) (exponent : Int) :
    0 < (ofMantissa mantissa exponent).denominator ∧
    ((ofMantissa mantissa exponent).low / (ofMantissa mantissa exponent).denominator : ℚ) =
      (mantissa - gapBelow mantissa exponent) * 2 ^ exponent ∧
    ((ofMantissa mantissa exponent).value / (ofMantissa mantissa exponent).denominator : ℚ) =
      mantissa * 2 ^ exponent ∧
    ((ofMantissa mantissa exponent).high / (ofMantissa mantissa exponent).denominator : ℚ) =
      (mantissa + 1 / 2) * 2 ^ exponent := by
  obtain ⟨gap, hle, hgap, heq⟩ := exists_gap hpos exponent
  obtain ⟨factor, den, hden, hquarter, hpair⟩ := exists_quarter exponent
  have hlow : ((4 * mantissa - gap : Nat) : ℚ) = 4 * (mantissa - gapBelow mantissa exponent) := by
    rw [Nat.cast_sub hle, hgap]
    push_cast
    ring
  have hscaled : ∀ count : Nat, ((count * factor : Nat) / den : ℚ) = count / 4 * 2 ^ exponent := by
    intro count
    rw [Nat.cast_mul, mul_div_assoc, hquarter]
    ring
  unfold ofMantissa
  rw [heq, hpair]
  refine ⟨hden, (hscaled _).trans ?_, (hscaled _).trans ?_, (hscaled _).trans ?_⟩
  · rw [hlow]
    ring
  · push_cast
    ring
  · push_cast
    ring

/-- The interval of a number in units of its mantissa. -/
theorem holds_ofMantissa_iff (hpos : 0 < mantissa) :
    (ofMantissa mantissa exponent).Holds value ↔
      (mantissa - gapBelow mantissa exponent < value / 2 ^ exponent ∨
        mantissa % 2 = 0 ∧ value / 2 ^ exponent = mantissa - gapBelow mantissa exponent) ∧
      (value / 2 ^ exponent < mantissa + 1 / 2 ∨
        mantissa % 2 = 0 ∧ value / 2 ^ exponent = mantissa + 1 / 2) := by
  have hpower : (0 : ℚ) < 2 ^ exponent := zpow_pos (by norm_num) exponent
  obtain ⟨-, hlow, -, hhigh⟩ := bounds_ofMantissa hpos exponent
  have hclosed : (ofMantissa mantissa exponent).closed ↔ mantissa % 2 = 0 := beq_iff_eq
  rw [Holds, hlow, hhigh, hclosed, lt_div_iff₀ hpower, div_lt_iff₀ hpower,
    div_eq_iff hpower.ne', div_eq_iff hpower.ne']

end Decimal.Interval

namespace Binary64

variable {num den mantissa : Nat} {exponent : Int} {negative sign : Bool} {value : ℚ}

/-! ## Rounding -/

/-- A whole number is nearest to a value, and even if another one is as near. -/
def IsNearest (whole : Nat) (value : ℚ) : Prop :=
  (whole - 1 / 2 < value ∨ whole % 2 = 0 ∧ value = whole - 1 / 2) ∧
  (value < whole + 1 / 2 ∨ whole % 2 = 0 ∧ value = whole + 1 / 2)

theorem isNearest_roundDiv (hpos : 0 < den) : IsNearest (roundDiv num den) (num / den) := by
  have hden : (0 : ℚ) < den := Nat.cast_pos.mpr hpos
  have hmod := Nat.mod_lt num hpos
  have hvalue : (num / den : ℚ) = (num / den : Nat) + (num % den : Nat) / den := by
    rw [div_eq_iff hden.ne', add_mul, div_mul_cancel₀ _ hden.ne']
    exact_mod_cast (Nat.div_add_mod' ..).symm
  rw [hvalue]
  unfold roundDiv
  generalize num / den = quotient
  generalize num % den = remainder at hmod
  have hnonneg : (0 : ℚ) ≤ remainder / den := by positivity
  have hlt : (remainder / den : ℚ) < 1 := (div_lt_one hden).mpr (Nat.cast_lt.mpr hmod)
  -- The remainder is below, above or at half of the denominator.
  have hcases : 2 * remainder < den ∧ (remainder / den : ℚ) < 1 / 2 ∨
      den < 2 * remainder ∧ (1 / 2 : ℚ) < remainder / den ∨
      2 * remainder = den ∧ (remainder / den : ℚ) = 1 / 2 := by
    rw [div_lt_iff₀ hden, lt_div_iff₀ hden, div_eq_iff hden.ne']
    rcases Nat.lt_trichotomy (2 * remainder) den with h | h | h
    · have : (2 * remainder : ℚ) < den := by exact_mod_cast h
      exact .inl ⟨h, by linarith⟩
    · have : (2 * remainder : ℚ) = den := by exact_mod_cast h
      exact .inr (.inr ⟨h, by linarith⟩)
    · have : (den : ℚ) < 2 * remainder := by exact_mod_cast h
      exact .inr (.inl ⟨h, by linarith⟩)
  generalize (remainder / den : ℚ) = fraction at hnonneg hlt hcases
  rcases hcases with ⟨h, hfraction⟩ | ⟨h, hfraction⟩ | ⟨h, hfraction⟩
  · rw [if_pos h]
    exact ⟨.inl (by linarith), .inl (by linarith)⟩
  · rw [if_neg (by omega), if_pos h]
    refine ⟨.inl ?_, .inl ?_⟩ <;> push_cast <;> linarith
  · rw [if_neg (by omega), if_neg (by omega)]
    by_cases heven : quotient % 2 = 0
    · rw [if_pos (beq_iff_eq.mpr heven)]
      exact ⟨.inl (by linarith), .inr ⟨heven, by linarith⟩⟩
    · rw [if_neg (mt beq_iff_eq.mp heven)]
      refine ⟨.inr ⟨by omega, ?_⟩, .inl ?_⟩ <;> push_cast <;> linarith

theorem IsNearest.bound_le {whole : Nat} (h : IsNearest whole value) (bound : Nat)
    (hle : bound ≤ value) : bound ≤ whole := by
  have hhalf : value ≤ whole + 1 / 2 := h.2.elim le_of_lt fun heq => heq.2.le
  have : (bound : ℚ) < (whole + 1 : Nat) := by
    push_cast
    linarith
  exact Nat.le_of_lt_succ (Nat.cast_lt.mp this)

theorem scaleDown_eq (num : Nat) (hpos : 0 < den) (exponent : Int) :
    ∃ top bottom : Nat, scaleDown num den exponent = (top, bottom) ∧ 0 < bottom ∧
      (top / bottom : ℚ) = num / den / 2 ^ exponent := by
  unfold scaleDown
  split
  next h =>
    obtain ⟨places, rfl⟩ := Int.eq_ofNat_of_zero_le h
    rw [Int.toNat_natCast, Nat.pow_eq, zpow_natCast]
    refine ⟨_, _, rfl, by positivity, ?_⟩
    push_cast
    rw [div_div]
  next h =>
    obtain ⟨places, rfl⟩ : ∃ places : Nat, exponent = -places := ⟨(-exponent).toNat, by omega⟩
    rw [neg_neg, Int.toNat_natCast, Nat.pow_eq, zpow_neg, zpow_natCast]
    refine ⟨_, _, rfl, hpos, ?_⟩
    push_cast
    rw [div_inv_eq_mul, div_mul_eq_mul_div]

/-- A quotient in units of a power of two, rounded. -/
def units (num den : Nat) (exponent : Int) : Nat :=
  roundDiv (scaleDown num den exponent).1 (scaleDown num den exponent).2

theorem isNearest_units (num : Nat) (hpos : 0 < den) (exponent : Int) :
    IsNearest (units num den exponent) (num / den / 2 ^ exponent) := by
  obtain ⟨top, bottom, hscale, hbottom, hvalue⟩ := scaleDown_eq num hpos exponent
  rw [units, hscale, ← hvalue]
  exact isNearest_roundDiv hbottom

/-- The number of a mantissa that may have been rounded up to the next power of two. -/
def settle (negative : Bool) (mantissa : Nat) (exponent : Int) : Binary64 :=
  let (mantissa, exponent) :=
    if mantissa == Nat.pow 2 53 then (Nat.pow 2 52, exponent + 1) else (mantissa, exponent)
  if greatestExponent < exponent then .infinite negative else .finite negative mantissa exponent

/-- The difference of the binary logarithms tells the exponent up to one. -/
theorem estimate_bounds (hnum : 0 < num) (hden : 0 < den) : (2 ^ 52 : ℚ) <
      num / den / 2 ^ ((num.log2 : Int) - den.log2 - 53) ∧
    (num / den / 2 ^ ((num.log2 : Int) - den.log2 - 53) : ℚ) < 2 ^ 54 := by
  have hpositive : (0 : ℚ) < den := Nat.cast_pos.mpr hden
  have htop : ((2 ^ num.log2 : Nat) : ℚ) ≤ num := Nat.cast_le.mpr (Nat.log2_self_le hnum.ne')
  have htop' : (num : ℚ) < (2 ^ (num.log2 + 1) : Nat) := Nat.cast_lt.mpr Nat.lt_log2_self
  have hbottom : ((2 ^ den.log2 : Nat) : ℚ) ≤ den := Nat.cast_le.mpr (Nat.log2_self_le hden.ne')
  have hbottom' : (den : ℚ) < (2 ^ (den.log2 + 1) : Nat) := Nat.cast_lt.mpr Nat.lt_log2_self
  push_cast at htop htop' hbottom hbottom'
  rw [pow_succ] at htop' hbottom'
  rw [zpow_sub₀ (by norm_num), zpow_sub₀ (by norm_num), zpow_natCast, zpow_natCast]
  have hleft : (0 : ℚ) < 2 ^ num.log2 := by positivity
  have hright : (0 : ℚ) < 2 ^ den.log2 := by positivity
  generalize (2 : ℚ) ^ num.log2 = left at *
  generalize (2 : ℚ) ^ den.log2 = right at *
  have hvalue : (num / den / (left / right / 2 ^ (53 : Int)) : ℚ) =
      num * right / (den * left) * 2 ^ 53 := by
    field_simp
  have hproduct : 0 < den * left := mul_pos hpositive hleft
  rw [hvalue]
  constructor
  · have : 1 / 2 < num * right / (den * left) := by
      rw [lt_div_iff₀ hproduct]
      nlinarith
    linarith
  · have : num * right / (den * left) < 2 := by
      rw [div_lt_iff₀ hproduct]
      nlinarith
    linarith

/-- A quotient is rounded in units of a power of two that leave 53 digits before the point, if such
a power is not below the least. -/
theorem ofQuotient_eq (negative : Bool) (hnum : 0 < num) (hden : 0 < den) :
    ∃ exponent : Int, leastExponent ≤ exponent ∧ (num / den / 2 ^ exponent : ℚ) < 2 ^ 53 ∧
      (exponent ≠ leastExponent → (2 ^ 52 : ℚ) ≤ num / den / 2 ^ exponent) ∧
      ofQuotient negative num den = settle negative (units num den exponent) exponent := by
  obtain ⟨hlow, hhigh⟩ := estimate_bounds hnum hden
  generalize hestimate : (num.log2 : Int) - den.log2 - 53 = estimate at hlow hhigh
  obtain ⟨top, bottom, hscale, -, hvalue⟩ := scaleDown_eq num hden estimate
  have hquotient : (0 : ℚ) ≤ num / den := by positivity
  generalize hnormal : (if Nat.pow 2 53 ≤ top / bottom then estimate + 1 else estimate) = normal
  have hbounds : (2 ^ 52 : ℚ) ≤ num / den / 2 ^ normal ∧ (num / den / 2 ^ normal : ℚ) < 2 ^ 53 := by
    rw [← Nat.floor_div_eq_div (K := ℚ), hvalue] at hnormal
    rw [← hnormal]
    split
    next h =>
      have : (2 ^ 53 : ℚ) ≤ num / den / 2 ^ estimate := by
        exact_mod_cast (Nat.le_floor_iff (by positivity)).mp h
      rw [zpow_add_one₀ (by norm_num), ← div_div]
      constructor <;> linarith
    next h =>
      have : (num / den / 2 ^ estimate : ℚ) < 2 ^ 53 := by
        exact_mod_cast (Nat.floor_lt (by positivity)).mp (Nat.lt_of_not_le h)
      exact ⟨hlow.le, this⟩
  refine ⟨max normal leastExponent, le_max_right _ _, ?_, ?_, ?_⟩
  · refine lt_of_le_of_lt ?_ hbounds.2
    have : (2 : ℚ) ^ normal ≤ 2 ^ max normal leastExponent :=
      zpow_le_zpow_right₀ (by norm_num) (le_max_left _ _)
    exact div_le_div_of_nonneg_left hquotient (zpow_pos (by norm_num) _) this
  · intro hne
    have hmax : max normal leastExponent = normal := by omega
    rw [hmax]
    exact hbounds.1
  · unfold ofQuotient
    simp only [hestimate, hscale, hnormal]
    rfl

/-! ## The number that is read -/

/-- A settled number has the mantissa, unless it was rounded up to the next power of two. -/
theorem settle_eq_finite {mantissa' : Nat} {exponent' : Int}
    (h : settle negative mantissa exponent = .finite sign mantissa' exponent') :
    mantissa = 2 ^ 53 ∧ mantissa' = 2 ^ 52 ∧ exponent' = exponent + 1 ∨
      mantissa ≠ 2 ^ 53 ∧ mantissa' = mantissa ∧ exponent' = exponent := by
  rw [settle, Nat.pow_eq, Nat.pow_eq] at h
  by_cases hcarry : mantissa = 2 ^ 53
  · rw [if_pos (beq_iff_eq.mpr hcarry)] at h
    dsimp only at h
    split at h
    · cases h
    · cases h
      exact .inl ⟨hcarry, rfl, rfl⟩
  · rw [if_neg (mt beq_iff_eq.mp hcarry)] at h
    dsimp only at h
    split at h
    · cases h
    · cases h
      exact .inr ⟨hcarry, rfl, rfl⟩

/-- A quotient lies in the interval of the number that it is read as. -/
theorem holds_of_ofQuotient (hnum : 0 < num) (hden : 0 < den)
    (h : ofQuotient negative num den = .finite sign mantissa exponent)
    (hpos : 0 < mantissa) :
    leastExponent ≤ exponent ∧
      (ofMantissa mantissa exponent).Holds (num / den) := by
  obtain ⟨unit, hleast, hhigh, hlow, heq⟩ := ofQuotient_eq negative hnum hden
  have hnearest := isNearest_units num hden unit
  rw [heq] at h
  rw [holds_ofMantissa_iff hpos]
  rcases settle_eq_finite h with ⟨hcarry, rfl, rfl⟩ | ⟨hne, rfl, rfl⟩
  · have hle : ((2 ^ 53 : Nat) : ℚ) - 1 / 2 ≤ num / den / 2 ^ unit := by
      rw [hcarry] at hnearest
      exact hnearest.1.elim le_of_lt fun heq => heq.2.ge
    have hne : unit + 1 ≠ leastExponent := by omega
    rw [gapBelow, if_pos ⟨rfl, hne⟩, zpow_add_one₀ (by norm_num), ← div_div]
    push_cast at hle ⊢
    refine ⟨by omega, ?_, .inl (by linarith)⟩
    rcases hle.eq_or_lt with heq | hlt
    · exact .inr ⟨by norm_num, by linarith⟩
    · exact .inl (by linarith)
  · refine ⟨hleast, ?_, hnearest.2⟩
    unfold gapBelow
    split
    next hpower =>
      have := hlow hpower.2
      rw [hpower.1]
      push_cast
      exact .inl (by linarith)
    · exact hnearest.1

/-- A quotient far from the ends of the range is read with a mantissa of 53 digits. -/
theorem exists_of_ofQuotient (negative : Bool) (hnum : 0 < num)
    (hden : 0 < den) (hlow : (10 : ℚ) ^ (-300 : Int) ≤ num / den)
    (hhigh : (num / den : ℚ) < 10 ^ (300 : Int)) :
    ∃ mantissa exponent, ofQuotient negative num den =
      .finite negative mantissa exponent ∧ 2 ^ 52 ≤ mantissa := by
  obtain ⟨unit, hleast, hbound, hnormal, heq⟩ := ofQuotient_eq negative hnum hden
  have hnearest := isNearest_units num hden unit
  have hpower : (0 : ℚ) < 2 ^ unit := zpow_pos (by norm_num) unit
  have hunit : unit ≠ leastExponent := by
    intro hleast
    rw [div_lt_iff₀ hpower, hleast] at hbound
    have hsmall : (2 : ℚ) ^ 53 * 2 ^ leastExponent ≤ 10 ^ (-300 : Int) := by
      have hpowers : 2 ^ 53 * 10 ^ 300 ≤ 1 * 2 ^ 1074 := by decide +kernel
      show (2 : ℚ) ^ 53 * 2 ^ (-(1074 : Nat) : Int) ≤ 10 ^ (-(300 : Nat) : Int)
      rw [zpow_neg, zpow_neg, zpow_natCast, zpow_natCast, ← div_eq_mul_inv, inv_eq_one_div,
        div_le_div_iff₀ (by positivity) (by positivity)]
      exact_mod_cast hpowers
    linarith
  have hmantissa := hnearest.bound_le (2 ^ 52) (by exact_mod_cast hnormal hunit)
  have hexponent : unit < 945 := by
    by_contra hlarge
    have hpowers : 10 ^ 300 ≤ 2 ^ 52 * 2 ^ 945 := by decide +kernel
    have hle : (2 : ℚ) ^ (945 : Nat) ≤ 2 ^ unit := by
      rw [← zpow_natCast]
      exact zpow_le_zpow_right₀ (by norm_num) (by omega)
    have hscaled := (le_div_iff₀ hpower).mp (hnormal hunit)
    have hbig : ((10 : ℚ) ^ (300 : Nat)) ≤ 2 ^ 52 * 2 ^ (945 : Nat) := by exact_mod_cast hpowers
    rw [show (10 : ℚ) ^ (300 : Int) = 10 ^ (300 : Nat) from zpow_natCast _ _] at hhigh
    have hreach := (mul_le_mul_of_nonneg_left hle (by norm_num)).trans hscaled
    exact absurd hhigh (not_lt.mpr (hbig.trans hreach))
  have hgreatest : ¬ greatestExponent < unit + 1 := by
    show ¬ (971 : Int) < unit + 1
    omega
  rw [heq, settle, Nat.pow_eq, Nat.pow_eq]
  by_cases hcarry : units num den unit = 2 ^ 53
  · rw [if_pos (beq_iff_eq.mpr hcarry)]
    exact ⟨_, _, if_neg hgreatest, Nat.le_refl _⟩
  · rw [if_neg (mt beq_iff_eq.mp hcarry)]
    exact ⟨_, _, if_neg (by omega), hmantissa⟩

theorem exists_natCast_of_ofQuotient (hnum : 0 < num)
    (h : ofQuotient negative num 1 = .finite sign mantissa exponent) :
    ∃ whole : Nat, (mantissa * 2 ^ exponent : ℚ) = whole := by
  obtain ⟨unit, -, -, -, heq⟩ := ofQuotient_eq negative hnum Nat.one_pos
  rw [heq] at h
  by_cases hunit : 0 ≤ unit
  · obtain ⟨places, hplaces⟩ : ∃ places : Nat, exponent = places := by
      rcases settle_eq_finite h with ⟨-, -, rfl⟩ | ⟨-, -, rfl⟩
      · exact ⟨(unit + 1).toNat, by omega⟩
      · exact ⟨exponent.toNat, by omega⟩
    exact ⟨mantissa * 2 ^ places, by rw [hplaces, zpow_natCast]; push_cast; rfl⟩
  · -- In units of less than one a whole number is exact.
    have hexact : (units num 1 unit : ℚ) * 2 ^ unit = num := by
      obtain ⟨places, rfl⟩ : ∃ places : Nat, unit = -places := ⟨(-unit).toNat, by omega⟩
      rw [units, scaleDown, if_neg hunit, neg_neg, Int.toNat_natCast, Nat.pow_eq, zpow_neg,
        zpow_natCast, roundDiv, Nat.mod_one, Nat.div_one, if_pos (by omega)]
      push_cast
      field_simp
    refine ⟨num, ?_⟩
    rcases settle_eq_finite h with ⟨hcarry, rfl, rfl⟩ | ⟨-, rfl, rfl⟩
    · rw [hcarry] at hexact
      rw [← hexact, zpow_add_one₀ (by norm_num)]
      push_cast
      ring
    · exact hexact

/-! ## The number of a decimal -/

/-- A decimal is read as its quotient, unless it is zero or beyond the range. -/
theorem ofDecimal_cases (negative : Bool) (decimal : Decimal) :
    ((decimal.digits = 0 ∨ ((Nat.toDigits 10 decimal.digits).length : Int) + decimal.scale < -400) ∧
      ofDecimal negative decimal.digits decimal.scale = .finite negative 0 leastExponent) ∨
    (400 < ((Nat.toDigits 10 decimal.digits).length : Int) + decimal.scale ∧
      ofDecimal negative decimal.digits decimal.scale = .infinite negative) ∨
    ∃ num den : Nat, 0 < num ∧ 0 < den ∧
      (num / den : ℚ) = decimal.toRat ∧ (0 ≤ decimal.scale → den = 1) ∧
      ofDecimal negative decimal.digits decimal.scale = ofQuotient negative num den := by
  unfold ofDecimal
  dsimp only
  split
  next h =>
    simp only [Bool.or_eq_true, beq_iff_eq, decide_eq_true_eq] at h
    exact .inl ⟨h, rfl⟩
  next h =>
    simp only [Bool.or_eq_true, beq_iff_eq, decide_eq_true_eq, not_or] at h
    have hpos : 0 < decimal.digits := Nat.pos_of_ne_zero h.1
    split
    next hlarge => exact .inr (.inl ⟨hlarge, rfl⟩)
    · refine .inr (.inr ?_)
      split
      next hscale =>
        obtain ⟨places, hplaces⟩ := Int.eq_ofNat_of_zero_le hscale
        refine ⟨_, 1, ?_, Nat.one_pos, ?_, fun _ => rfl, rfl⟩
        · exact Nat.mul_pos hpos (Nat.pow_pos (by omega))
        · rw [toRat, hplaces, Int.toNat_natCast, zpow_natCast, Nat.pow_eq]
          push_cast
          rw [div_one]
      next hscale =>
        obtain ⟨places, hplaces⟩ : ∃ places : Nat, decimal.scale = -places :=
          ⟨(-decimal.scale).toNat, by omega⟩
        refine ⟨_, _, hpos, Nat.pow_pos (by omega), ?_, fun h => absurd h hscale, rfl⟩
        rw [toRat, hplaces, neg_neg, Int.toNat_natCast, zpow_neg, zpow_natCast]
        push_cast
        rfl

variable {decimal : Decimal}

/-- A decimal that is read as a positive number lies in its interval. -/
theorem holds_of_ofDecimal
    (h : ofDecimal negative decimal.digits decimal.scale = .finite sign mantissa exponent)
    (hpos : 0 < mantissa) :
    leastExponent ≤ exponent ∧
      (ofMantissa mantissa exponent).Holds decimal.toRat := by
  rcases ofDecimal_cases negative decimal with ⟨-, heq⟩ | ⟨-, heq⟩ |
    ⟨num, den, hnum, hden, hvalue, -, heq⟩
  · rw [heq] at h
    cases h
    exact absurd hpos (Nat.lt_irrefl 0)
  · rw [heq] at h
    cases h
  · rw [heq] at h
    rw [← hvalue]
    exact holds_of_ofQuotient hnum hden h hpos

/-- A decimal without places behind the point is read as a whole number. -/
theorem exists_natCast_of_ofDecimal (hscale : 0 ≤ decimal.scale)
    (h : ofDecimal negative decimal.digits decimal.scale = .finite sign mantissa exponent) :
    ∃ whole : Nat, (mantissa * 2 ^ exponent : ℚ) = whole := by
  rcases ofDecimal_cases negative decimal with ⟨-, heq⟩ | ⟨-, heq⟩ |
    ⟨num, den, hnum, -, -, hone, heq⟩
  · rw [heq] at h
    cases h
    exact ⟨0, by rw [Nat.cast_zero, zero_mul]⟩
  · rw [heq] at h
    cases h
  · rw [heq, hone hscale] at h
    exact exists_natCast_of_ofQuotient hnum h

/-- A decimal far from the ends of the range is read with a mantissa of 53 digits. -/
theorem exists_of_ofDecimal (negative : Bool) (hlow : (10 : ℚ) ^ (-300 : Int) ≤ decimal.toRat)
    (hhigh : decimal.toRat < 10 ^ (300 : Int)) :
    ∃ mantissa exponent, ofDecimal negative decimal.digits decimal.scale =
      .finite negative mantissa exponent ∧ 2 ^ 52 ≤ mantissa := by
  have hvalue := (ten_zpow_pos (-300)).trans_le hlow
  have hne : decimal.digits ≠ 0 := by
    intro hzero
    rw [toRat, hzero, Nat.cast_zero, zero_mul] at hvalue
    exact hvalue.false
  have hunit := ten_zpow_pos decimal.scale
  have hlength := length_toDigits hne
  -- The digits before the point tell the power of ten.
  have hdigits : ((10 ^ Nat.log 10 decimal.digits : Nat) : ℚ) ≤ decimal.digits :=
    Nat.cast_le.mpr (Nat.pow_log_le_self 10 hne)
  have hdigits' : (decimal.digits : ℚ) < (10 ^ (Nat.log 10 decimal.digits + 1) : Nat) :=
    Nat.cast_lt.mpr (Nat.lt_pow_succ_log_self (by omega) decimal.digits)
  rw [Nat.cast_pow, ← zpow_natCast, Nat.cast_ofNat] at hdigits hdigits'
  have hsmall : (Nat.log 10 decimal.digits : Int) + decimal.scale < 300 := by
    rw [← zpow_lt_zpow_iff_right₀ (show (1 : ℚ) < 10 by norm_num)]
    refine lt_of_le_of_lt ?_ hhigh
    rw [zpow_add₀ (by norm_num)]
    exact mul_le_mul_of_nonneg_right hdigits hunit.le
  have hlarge : -300 < ((Nat.log 10 decimal.digits + 1 : Nat) : Int) + decimal.scale := by
    rw [← zpow_lt_zpow_iff_right₀ (show (1 : ℚ) < 10 by norm_num)]
    refine lt_of_le_of_lt hlow ?_
    rw [zpow_add₀ (by norm_num)]
    exact mul_lt_mul_of_pos_right hdigits' hunit
  rcases ofDecimal_cases negative decimal with ⟨hzero, -⟩ | ⟨hbeyond, -⟩ |
    ⟨num, den, hnum, hden, hquotient, -, heq⟩
  · omega
  · omega
  · rw [heq]
    rw [← hquotient] at hlow hhigh
    exact exists_of_ofQuotient negative hnum hden hlow hhigh

/-- Whether the number has the sign. -/
def isNegative : Binary64 → Bool
  | .finite negative _ _ => negative
  | .infinite negative => negative

theorem isNegative_ofDecimal (negative : Bool) (decimal : Decimal) :
    (ofDecimal negative decimal.digits decimal.scale).isNegative = negative := by
  rcases ofDecimal_cases negative decimal with ⟨-, heq⟩ | ⟨-, heq⟩ |
    ⟨num, den, hnum, hden, -, -, heq⟩
  · rw [heq, isNegative]
  · rw [heq, isNegative]
  · obtain ⟨exponent, -, -, -, hsettle⟩ := ofQuotient_eq negative hnum hden
    rw [heq, hsettle, settle]
    generalize (if units num den exponent == Nat.pow 2 53 then
      (Nat.pow 2 52, exponent + 1) else (units num den exponent, exponent)) = settled
    dsimp only
    split <;> rfl

end Binary64

end Restyle
