import Restyle.Proofs.Decimal.Digits
import Restyle.Proofs.Dialect.Comments
import Restyle.Proofs.Token.CustomName

/-!
# Numbers hold no names

A number is displayed with at most one hyphen (`Binary64.count_hyphen_positional`), and the name of
a custom property begins with two. So no name occurs in a number: `Token.count_positional_eq_zero`.
-/

namespace Restyle

open Byte List

open Token (isCustomName)

theorem Byte.isAlphanumeric_of_isDigit {byte : UInt8} (h : isDigit byte) :
    isAlphanumeric byte := by
  rw [isAlphanumeric, h, Bool.or_true]

namespace Binary64

open Digits (point)

/-- A finite number is displayed by its sign and a decimal, which is zero or the shortest. -/
theorem utf8_positional_finite (negative : Bool) (mantissa : Nat) (exponent : Int) :
    utf8 (finite negative mantissa exponent).positional =
      (if negative then [hyphen] else []) ++
        utf8 (if mantissa = 0 then (⟨0, 0⟩ : Decimal)
          else Decimal.shortest mantissa exponent).positional := by
  have hdigits : (if mantissa == 0 then "0" else (Decimal.shortest mantissa exponent).positional) =
      (if mantissa = 0 then (⟨0, 0⟩ : Decimal)
        else Decimal.shortest mantissa exponent).positional := by
    by_cases hzero : mantissa = 0
    · rw [if_pos (beq_iff_eq.mpr hzero), if_pos hzero]
      rfl
    · rw [if_neg (mt beq_iff_eq.mp hzero), if_neg hzero]
  rw [positional, hdigits]
  cases negative with
  | false => rfl
  | true =>
    rw [if_pos rfl, Text.utf8_eq, Text.utf8_eq, String.toList_append]
    rfl

/-- A number is displayed in letters, digits and points, behind a hyphen if it is negative. -/
theorem exists_positional (number : Binary64) :
    ∃ (negative : Bool) (digits : Text),
      utf8 number.positional = (if negative then [hyphen] else []) ++ digits ∧
        ∀ byte ∈ digits, isAlphanumeric byte ∨ byte = point := by
  cases number with
  | infinite negative =>
    have hletters : (utf8 "inf").all isAlphanumeric := by decide
    exact ⟨negative, utf8 "inf", by cases negative <;> decide,
      fun byte hmem => .inl (all_eq_true.mp hletters byte hmem)⟩
  | finite negative mantissa exponent =>
    refine ⟨negative, _, utf8_positional_finite .., fun byte hmem => ?_⟩
    exact (Decimal.mem_positional hmem).imp_left isAlphanumeric_of_isDigit

theorem count_hyphen_positional (number : Binary64) :
    (utf8 number.positional).count hyphen ≤ 1 := by
  obtain ⟨negative, digits, heq, hdigits⟩ := number.exists_positional
  have hnone : digits.count hyphen = 0 :=
    count_eq_zero.mpr fun hmem => absurd (hdigits _ hmem) (by decide)
  rw [heq, count_append, hnone]
  cases negative <;> decide

end Binary64

/-- A name does not occur in a text with one hyphen. -/
theorem Token.count_eq_zero_of_hyphens {token text : Text} (htoken : isCustomName token)
    (h : text.count hyphen ≤ 1) : Token.count token text = 0 := by
  refine length_eq_zero_iff.mpr (eq_nil_iff_forall_not_mem.mpr fun offset hoffset => ?_)
  have hstands := Token.standsAt_of_mem_occurrences hoffset
  simp only [Token.standsAt, Bool.and_eq_true, isPrefixOf_iff_prefix] at hstands
  have hsublist := hstands.1.1.sublist.trans (drop_sublist ..)
  obtain ⟨rest, rfl, -⟩ := Token.exists_of_isCustomName htoken
  have htwo := hsublist.count_le hyphen
  simp at htwo
  omega

/-- Blanking comments brings no hyphen in. -/
theorem Dialect.count_hyphen_stripFrom (dialect : Dialect) (scan : Scan) (text : Text) :
    (dialect.stripFrom scan text).count hyphen ≤ text.count hyphen := by
  induction text generalizing scan with
  | nil => exact Nat.le_refl _
  | cons byte rest ih =>
    rw [stripFrom_cons, count_cons, count_cons]
    refine Nat.add_le_add (ih _) ?_
    split
    · have hblank : (blankByte byte == hyphen) = false := by
        rcases blankByte_cases byte with h | h <;> rw [h] <;> decide
      simp [hblank]
    · exact Nat.le_refl _

theorem Token.count_positional_eq_zero {token : Text} (htoken : isCustomName token)
    (dialect : Dialect) (number : Binary64) :
    Token.count token (dialect.stripComments (utf8 number.positional)) = 0 :=
  count_eq_zero_of_hyphens htoken
    (Nat.le_trans (dialect.count_hyphen_stripFrom _ _) number.count_hyphen_positional)

end Restyle
