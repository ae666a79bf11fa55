import Restyle.Proofs.Decimal.Rounding

/-!
# The decimal that is shown

A number is shown by the shortest decimal of its interval. It has no zero at its end
(`Decimal.shortest_mod_ten`), a whole number has no places behind the point
(`Decimal.scale_shortest_nonneg`), and of the decimals in the interval of a number it is the one
with at most fifteen digits, if there is one (`Decimal.toRat_shortest`).
-/

namespace Restyle.Decimal

open List

/-- The power of ten that the first digit of a number counts. -/
abbrev magnitude (mantissa : Nat) (exponent : Int) : Int :=
  Int.log 10 (mantissa * 2 ^ exponent : ℚ)

variable {mantissa places : Nat} {exponent : Int} {decimal : Decimal}

namespace Interval

variable {interval : Interval} {leading : Int}

/-! ## Decimals of so many places -/

/-- A decimal that is found is one of the two around the value. -/
theorem ofPlaces?_eq_some (hpos : 0 < interval.denominator)
    (h : interval.ofPlaces? leading places = some decimal) :
    decimal.scale = leading - places + 1 ∧
      decimal.digits ≤
        ⌊(interval.value / interval.denominator : ℚ) / 10 ^ (leading - places + 1)⌋₊ + 1 ∧
      interval.Holds decimal.toRat := by
  simp only [ofPlaces?] at h
  rw [floorOf_eq] at h
  generalize ⌊(interval.value / interval.denominator : ℚ) / 10 ^ (leading - places + 1)⌋₊ =
    below at h ⊢
  split at h
  next hbelow habove =>
    split at h
    · cases h
      exact ⟨rfl, Nat.le_succ _, (contains_iff hpos).mp hbelow⟩
    · cases h
      exact ⟨rfl, Nat.le_refl _, (contains_iff hpos).mp habove⟩
  next hbelow _ =>
    cases h
    exact ⟨rfl, Nat.le_succ _, (contains_iff hpos).mp hbelow⟩
  next _ habove =>
    cases h
    exact ⟨rfl, Nat.le_refl _, (contains_iff hpos).mp habove⟩
  · cases h

/-- A decimal of so many places is found if there is one in the interval. -/
theorem isSome_ofPlaces? (hpos : 0 < interval.denominator)
    (hvalue : interval.Holds (interval.value / interval.denominator)) {digits : Nat}
    (h : interval.Holds (digits * 10 ^ (leading - places + 1))) :
    (interval.ofPlaces? leading places).isSome := by
  simp only [ofPlaces?]
  rw [floorOf_eq]
  have hunit := ten_zpow_pos (leading - places + 1)
  have hnonneg : (0 : ℚ) ≤ interval.value / interval.denominator := by positivity
  generalize (interval.value / interval.denominator : ℚ) = value at hvalue hnonneg ⊢
  generalize hscale : leading - places + 1 = scale at h hunit ⊢
  have hfloor : (⌊value / 10 ^ scale⌋₊ : ℚ) ≤ value / 10 ^ scale :=
    Nat.floor_le (div_nonneg hnonneg hunit.le)
  have hsucc := Nat.lt_floor_add_one (value / 10 ^ scale)
  rw [le_div_iff₀ hunit] at hfloor
  rw [div_lt_iff₀ hunit] at hsucc
  -- The decimal below or above the value is between the value and the decimal in the interval.
  have hone : interval.contains ⟨⌊value / 10 ^ scale⌋₊, scale⟩ ∨
      interval.contains ⟨⌊value / 10 ^ scale⌋₊ + 1, scale⟩ := by
    rw [contains_iff hpos, contains_iff hpos, toRat, toRat]
    rcases le_or_gt (digits * 10 ^ scale : ℚ) value with hle | hlt
    · have hdigits : digits ≤ ⌊value / 10 ^ scale⌋₊ := Nat.le_floor ((le_div_iff₀ hunit).mpr hle)
      refine .inl (h.between hvalue ?_ hfloor)
      exact mul_le_mul_of_nonneg_right (Nat.cast_le.mpr hdigits) hunit.le
    · have hdigits : ⌊value / 10 ^ scale⌋₊ + 1 ≤ digits :=
        (Nat.floor_lt (div_nonneg hnonneg hunit.le)).mpr ((div_lt_iff₀ hunit).mpr hlt)
      refine .inr (hvalue.between h ?_ ?_)
      · push_cast
        exact hsucc.le
      · exact mul_le_mul_of_nonneg_right (Nat.cast_le.mpr hdigits) hunit.le
  rcases hone with hbelow | habove
  · rw [hbelow]
    cases interval.contains ⟨⌊value / 10 ^ scale⌋₊ + 1, scale⟩ with
    | false => rfl
    | true =>
      dsimp only
      split <;> rfl
  · rw [habove]
    cases interval.contains ⟨⌊value / 10 ^ scale⌋₊, scale⟩ with
    | false => rfl
    | true =>
      dsimp only
      split <;> rfl

/-- The values of the interval of a number are within half of a unit of its mantissa. -/
theorem Holds.bounds (hpos : 0 < mantissa) {value : ℚ}
    (h : (ofMantissa mantissa exponent).Holds value) :
    (mantissa - 1 / 2) * 2 ^ exponent ≤ value ∧ value ≤ (mantissa + 1 / 2) * 2 ^ exponent := by
  have hpower : (0 : ℚ) < 2 ^ exponent := zpow_pos (by norm_num) exponent
  have hgap : gapBelow mantissa exponent ≤ 1 / 2 := by
    unfold gapBelow
    split <;> norm_num
  rw [holds_ofMantissa_iff hpos] at h
  rw [← le_div_iff₀ hpower, ← div_le_iff₀ hpower]
  have hlow : mantissa - gapBelow mantissa exponent ≤ value / 2 ^ exponent :=
    h.1.elim le_of_lt fun h => h.2.ge
  exact ⟨by linarith, h.2.elim le_of_lt fun h => h.2.le⟩

theorem Holds.pos (hpos : 0 < mantissa) {value : ℚ}
    (h : (ofMantissa mantissa exponent).Holds value) : 0 < value := by
  have hone : (1 : ℚ) ≤ mantissa := Nat.one_le_cast.mpr hpos
  have hlow : (0 : ℚ) < (mantissa - 1 / 2) * 2 ^ exponent :=
    mul_pos (by linarith) (zpow_pos (by norm_num) exponent)
  exact hlow.trans_le (h.bounds hpos).1

theorem holds_mantissa (hpos : 0 < mantissa) (exponent : Int) :
    (ofMantissa mantissa exponent).Holds (mantissa * 2 ^ exponent) := by
  rw [holds_ofMantissa_iff hpos, mul_div_cancel_right₀ _ (zpow_ne_zero _ (by norm_num))]
  have hgap : 0 < gapBelow mantissa exponent := by
    unfold gapBelow
    split <;> norm_num
  exact ⟨.inl (by linarith), .inl (by linarith)⟩

theorem leadingExponent_ofMantissa (hpos : 0 < mantissa)
    (hleast : Binary64.leastExponent ≤ exponent) :
    leadingExponent (ofMantissa mantissa exponent).value
      (ofMantissa mantissa exponent).denominator = magnitude mantissa exponent := by
  obtain ⟨hdenominator, -, hvalue, -⟩ := bounds_ofMantissa hpos exponent
  rw [leadingExponent_eq hdenominator, hvalue]
  -- The least number is far above the bound of the fuel.
  have hpowers : 2 ^ 1074 ≤ 10 ^ 400 := by decide +kernel
  have hexponent : ((2 : ℚ) ^ (1074 : Nat))⁻¹ ≤ 2 ^ exponent := by
    exact zpow_le_zpow_right₀ (by norm_num) hleast
  have hone : (1 : ℚ) ≤ mantissa := Nat.one_le_cast.mpr hpos
  have hcast : (0 : ℚ) < (ofMantissa mantissa exponent).denominator := Nat.cast_pos.mpr hdenominator
  have hreach : (1 : ℚ) ≤ mantissa * 2 ^ exponent * (10 ^ 400 : Nat) := by
    calc (1 : ℚ) = 1 * ((2 : ℚ) ^ (1074 : Nat))⁻¹ * (2 ^ 1074 : Nat) := by
          rw [one_mul, Nat.cast_pow, Nat.cast_ofNat, inv_mul_cancel₀ (by positivity)]
      _ ≤ mantissa * 2 ^ exponent * (10 ^ 400 : Nat) := by
          gcongr
  rw [← hvalue, div_mul_eq_mul_div, one_le_div hcast] at hreach
  exact_mod_cast hreach

end Interval

/-! ## The search -/

/-- The decimal of so many places that is tried for a number. -/
def candidate? (mantissa : Nat) (exponent : Int) (places : Nat) : Option Decimal :=
  (Interval.ofMantissa mantissa exponent).ofPlaces?
    (leadingExponent (Interval.ofMantissa mantissa exponent).value
      (Interval.ofMantissa mantissa exponent).denominator) places

/-- The shortest decimal is found with the fewest places with which there is one. If none is found
it is zero. -/
theorem shortest_cases (mantissa : Nat) (exponent : Int) :
    (∃ places found, places ≤ 17 ∧ candidate? mantissa exponent places = some found ∧
      (∀ fewer, 1 ≤ fewer → fewer < places → candidate? mantissa exponent fewer = none) ∧
      shortest mantissa exponent = found.stripZeros 17) ∨
    (∀ places, 1 ≤ places → places ≤ 17 → candidate? mantissa exponent places = none) ∧
      shortest mantissa exponent = ⟨0, 0⟩ := by
  have hshortest : shortest mantissa exponent = (((range 17).findSome? fun place =>
      candidate? mantissa exponent (place + 1)).getD ⟨0, 0⟩).stripZeros 17 := rfl
  rw [hshortest]
  generalize hsearch : ((range 17).findSome? fun place =>
    candidate? mantissa exponent (place + 1)) = search
  cases search with
  | none =>
    rw [findSome?_eq_none_iff] at hsearch
    refine .inr ⟨?_, rfl⟩
    intro places hone hle
    rw [← Nat.sub_add_cancel hone]
    exact hsearch (places - 1) (mem_range.mpr (by omega))
  | some found =>
    obtain ⟨earlier, place, later, hrange, hfound, hnone⟩ := findSome?_eq_some_iff.mp hsearch
    have hmem : place ∈ range 17 := by
      rw [hrange]
      exact mem_append_right _ mem_cons_self
    have hbound := mem_range.mp hmem
    have hsorted := pairwise_lt_range (n := 17)
    rw [hrange, pairwise_append, pairwise_cons] at hsorted
    refine .inl ⟨place + 1, found, by omega, hfound, ?_, rfl⟩
    intro fewer hone hlt
    have hmem' : fewer - 1 ∈ range 17 := mem_range.mpr (by omega)
    rw [hrange, mem_append, mem_cons] at hmem'
    rcases hmem' with hearlier | hplace | hlater
    · rw [← Nat.sub_add_cancel hone]
      exact hnone _ hearlier
    · omega
    · have := hsorted.2.1.1 _ hlater
      omega

theorem log_bounds (hpos : 0 < mantissa) (exponent : Int) :
    (10 : ℚ) ^ magnitude mantissa exponent ≤ mantissa * 2 ^ exponent ∧
      (mantissa * 2 ^ exponent : ℚ) < 10 ^ (magnitude mantissa exponent + 1) := by
  have hvalue : (0 : ℚ) < mantissa * 2 ^ exponent := by positivity
  exact ⟨by exact_mod_cast Int.zpow_log_le_self (b := 10) (by omega) hvalue,
    by exact_mod_cast Int.lt_zpow_succ_log_self (b := 10) (by omega) (mantissa * 2 ^ exponent : ℚ)⟩

variable (hpos : 0 < mantissa) (hleast : Binary64.leastExponent ≤ exponent)

include hpos hleast

/-- A decimal that is found lies in the interval. It has no more digits than were asked for, or is
the next power of ten. -/
theorem candidate?_eq_some (h : candidate? mantissa exponent places = some decimal) :
    decimal.scale = magnitude mantissa exponent - places + 1 ∧
      decimal.digits ≠ 0 ∧ decimal.digits ≤ 10 ^ places ∧
      (Interval.ofMantissa mantissa exponent).Holds decimal.toRat := by
  obtain ⟨hdenominator, hlow, hvalue, -⟩ := Interval.bounds_ofMantissa hpos exponent
  rw [candidate?, Interval.leadingExponent_ofMantissa hpos hleast] at h
  obtain ⟨hscale, hdigits, hholds⟩ := Interval.ofPlaces?_eq_some hdenominator h
  rw [hvalue] at hdigits
  refine ⟨hscale, ?_, ?_, hholds⟩
  · intro hzero
    have := hholds.pos hpos
    rw [toRat, hzero, Nat.cast_zero, zero_mul] at this
    exact this.false
  · refine hdigits.trans ?_
    have hunit := ten_zpow_pos (magnitude mantissa exponent - places + 1)
    have hpower : (10 : ℚ) ^ (magnitude mantissa exponent + 1) =
        (10 ^ places : Nat) * 10 ^ (magnitude mantissa exponent - places + 1) := by
      push_cast
      rw [← zpow_natCast, ← zpow_add₀ (by norm_num)]
      congr 1
      omega
    have hlt := (log_bounds hpos exponent).2
    rw [hpower, ← div_lt_iff₀ hunit] at hlt
    exact (Nat.floor_lt (by positivity)).mpr hlt

/-- A decimal is found if there is one of so many places in the interval. -/
theorem isSome_candidate? (places digits : Nat)
    (h : (Interval.ofMantissa mantissa exponent).Holds
      (digits * 10 ^ (magnitude mantissa exponent - places + 1))) :
    (candidate? mantissa exponent places).isSome := by
  obtain ⟨hdenominator, -, hvalue, -⟩ := Interval.bounds_ofMantissa hpos exponent
  rw [candidate?, Interval.leadingExponent_ofMantissa hpos hleast]
  refine Interval.isSome_ofPlaces? hdenominator ?_ h
  rw [hvalue]
  exact Interval.holds_mantissa hpos exponent

theorem shortest_mod_ten :
    (shortest mantissa exponent).digits % 10 ≠ 0 ∨ shortest mantissa exponent = ⟨0, 0⟩ := by
  rcases shortest_cases mantissa exponent with ⟨places, found, hle, hfound, -, heq⟩ | ⟨-, heq⟩
  · obtain ⟨-, hne, hdigits, -⟩ := candidate?_eq_some hpos hleast hfound
    rw [heq]
    refine .inl (stripZeros_mod_ten hne ?_)
    have : 10 ^ places ≤ 10 ^ 17 := Nat.pow_le_pow_right (by omega) hle
    omega
  · exact .inr heq

theorem scale_shortest_nonneg {whole : Nat} (h : (mantissa * 2 ^ exponent : ℚ) = whole) :
    0 ≤ (shortest mantissa exponent).scale := by
  rcases shortest_cases mantissa exponent with ⟨places, found, hle, hfound, hfewer, heq⟩ | ⟨-, heq⟩
  · obtain ⟨hscale, -⟩ := candidate?_eq_some hpos hleast hfound
    rw [heq]
    refine Int.le_trans ?_ (scale_le_stripZeros ..)
    by_contra hneg
    have hvalue : (0 : ℚ) < mantissa * 2 ^ exponent := by positivity
    have hone : (1 : ℚ) ≤ mantissa * 2 ^ exponent := by
      rw [h] at hvalue ⊢
      exact Nat.one_le_cast.mpr (Nat.cast_pos.mp hvalue)
    have hlog : 0 ≤ magnitude mantissa exponent := by
      rw [magnitude, Int.log_of_one_le_right 10 hone]
      exact Int.natCast_nonneg _
    -- With as many places as the number has digits the number itself would have been found.
    have hsome := isSome_candidate? hpos hleast
      (magnitude mantissa exponent + 1).toNat whole (by
        rw [Int.toNat_of_nonneg (by omega), sub_add_cancel_left, neg_add_cancel, zpow_zero,
          mul_one, ← h]
        exact Interval.holds_mantissa hpos exponent)
    rw [hfewer _ (by omega) (by omega)] at hsome
    cases hsome
  · rw [heq]

omit hpos hleast

/-! ## Decimals of fifteen digits -/

theorem exists_units {scale : Int} (h : scale ≤ decimal.scale) :
    ∃ units : Nat, decimal.toRat = units * 10 ^ scale := by
  obtain ⟨places, hplaces⟩ := Int.eq_ofNat_of_zero_le (Int.sub_nonneg_of_le h)
  refine ⟨decimal.digits * 10 ^ places, ?_⟩
  rw [toRat, show decimal.scale = places + scale by omega, zpow_add₀ (by norm_num), zpow_natCast]
  push_cast
  ring

variable (hnormal : 2 ^ 52 ≤ mantissa)

include hnormal

/-- The unit of a mantissa of 53 digits is less than a quarter of the fifteenth digit. -/
theorem four_mul_unit_lt (exponent : Int) :
    4 * (2 : ℚ) ^ exponent < 10 ^ (magnitude mantissa exponent - 14) := by
  have hpower : (0 : ℚ) < 2 ^ exponent := zpow_pos (by norm_num) exponent
  have hhigh := (log_bounds (by omega : 0 < mantissa) exponent).2
  have hmantissa : (2 ^ 52 : ℚ) * 2 ^ exponent ≤ mantissa * 2 ^ exponent :=
    mul_le_mul_of_nonneg_right (by exact_mod_cast hnormal) hpower.le
  have hdigits : (10 : ℚ) ^ (magnitude mantissa exponent + 1) =
      10 ^ 15 * 10 ^ (magnitude mantissa exponent - 14) := by
    rw [← zpow_natCast, ← zpow_add₀ (by norm_num)]
    congr 1
    ring
  linarith

/-- In the interval of a number there is at most one decimal of fifteen digits. -/
theorem units_unique {units units' : Nat}
    (h : (Interval.ofMantissa mantissa exponent).Holds
      (units * 10 ^ (magnitude mantissa exponent - 14)))
    (h' : (Interval.ofMantissa mantissa exponent).Holds
      (units' * 10 ^ (magnitude mantissa exponent - 14))) : units = units' := by
  have hlt := four_mul_unit_lt hnormal exponent
  obtain ⟨hlow, hhigh⟩ := h.bounds (by omega)
  obtain ⟨hlow', hhigh'⟩ := h'.bounds (by omega)
  generalize (10 : ℚ) ^ (magnitude mantissa exponent - 14) = unit at *
  have hless : (units : ℚ) < (units' + 1 : Nat) := by
    push_cast
    nlinarith
  have hless' : (units' : ℚ) < (units + 1 : Nat) := by
    push_cast
    nlinarith
  have := Nat.cast_lt.mp hless
  have := Nat.cast_lt.mp hless'
  omega

/-- A decimal of at most fifteen digits in the interval of a number has no smaller unit than the
fifteenth digit of the number, also if the number is a power of ten or the decimal is just below
one. -/
theorem le_scale_of_holds (hdigits : decimal.digits < 10 ^ 15)
    (hholds : (Interval.ofMantissa mantissa exponent).Holds decimal.toRat) :
    magnitude mantissa exponent - 14 ≤ decimal.scale := by
  by_contra hlt
  have hpos : 0 < mantissa := by omega
  have hlow := (log_bounds hpos exponent).1
  have hpower : (0 : ℚ) < 2 ^ exponent := zpow_pos (by norm_num) exponent
  have hmantissa : (2 ^ 52 : ℚ) * 2 ^ exponent ≤ mantissa * 2 ^ exponent :=
    mul_le_mul_of_nonneg_right (by exact_mod_cast hnormal) hpower.le
  have hnear := (hholds.bounds hpos).1
  have hsmall : decimal.toRat ≤
      (10 ^ 15 - 1) * 10 ^ (magnitude mantissa exponent - 15) := by
    have hcast : (decimal.digits : ℚ) ≤ 10 ^ 15 - 1 := by
      have : ((decimal.digits + 1 : Nat) : ℚ) ≤ (10 ^ 15 : Nat) := Nat.cast_le.mpr hdigits
      push_cast at this
      linarith
    refine mul_le_mul hcast ?_ (ten_zpow_pos _).le (by norm_num)
    exact zpow_le_zpow_right₀ (by norm_num) (by omega)
  have hdigit : (10 : ℚ) ^ magnitude mantissa exponent =
      10 ^ 15 * 10 ^ (magnitude mantissa exponent - 15) := by
    rw [← zpow_natCast, ← zpow_add₀ (by norm_num)]
    congr 1
    ring
  linarith

include hleast

/-- Of the decimals in the interval of a number with a mantissa of 53 digits the one with at most
fifteen digits is the shortest. -/
theorem toRat_shortest (hdigits : decimal.digits < 10 ^ 15)
    (hholds : (Interval.ofMantissa mantissa exponent).Holds decimal.toRat) :
    (shortest mantissa exponent).toRat = decimal.toRat ∧
      (shortest mantissa exponent).digits % 10 ≠ 0 := by
  have hpos : 0 < mantissa := by omega
  obtain ⟨units, hunits⟩ := exists_units (le_scale_of_holds hnormal hdigits hholds)
  have hsome : (candidate? mantissa exponent 15).isSome := by
    refine isSome_candidate? hpos hleast 15 units ?_
    rw [hunits] at hholds
    rwa [show magnitude mantissa exponent - (15 : Nat) + 1 =
      magnitude mantissa exponent - 14 by omega]
  rcases shortest_cases mantissa exponent with ⟨places, found, hle, hfound, hfewer, heq⟩ |
    ⟨hnone, -⟩
  · have hplaces : places ≤ 15 := by
      by_contra hmore
      rw [hfewer 15 (by omega) (by omega)] at hsome
      cases hsome
    obtain ⟨hscale, hne, hbound, hholds'⟩ := candidate?_eq_some hpos hleast hfound
    obtain ⟨units', hunits'⟩ : ∃ units : Nat, found.toRat =
        units * 10 ^ (magnitude mantissa exponent - 14) := exists_units (by omega)
    rw [hunits] at hholds
    rw [hunits'] at hholds'
    rw [heq, toRat_stripZeros, hunits, hunits', units_unique hnormal hholds' hholds]
    refine ⟨rfl, stripZeros_mod_ten hne ?_⟩
    have : 10 ^ places ≤ 10 ^ 15 := Nat.pow_le_pow_right (by omega) hplaces
    omega
  · rw [hnone 15 (by omega) (by omega)] at hsome
    cases hsome

end Restyle.Decimal
