import Mathlib.Algebra.Group.Nat.Defs
import Mathlib.Data.List.Induction
import Restyle.Decimal.Shortest
import Restyle.Proofs.Text.Encoding

/-!
# The digits of decimals

Digits are read from the left (`Digits.value`), and a number is written without zeros in front
(`Digits.ofNat`). Digits are zeros and the digits of their value: `Digits.exists_zeros`. A decimal
is displayed by its digits with zeros behind them, or with a point and zeros in front:
`Decimal.utf8_positional`.
-/

namespace Restyle

open Byte List Text

namespace Digits

/-- The digit zero. -/
def zero : UInt8 := 0x30

/-- The point of a decimal. -/
def point : UInt8 := 0x2E

/-- The digits of a number. -/
def ofNat (number : Nat) : Text :=
  ofChars (Nat.toDigits 10 number)

/-- The number of digits. -/
def value (digits : Text) : Nat :=
  digits.foldl (fun value digit => value * 10 + (digit.toNat - 0x30)) 0

variable {digits : Text} {number : Nat}

/-! ## Writing -/

theorem encode_digitChar {digit : Nat} (h : digit < 10) :
    String.utf8EncodeChar (Nat.digitChar digit) = [UInt8.ofNat (0x30 + digit)] := by
  revert digit
  decide

theorem ofNat_eq (number : Nat) :
    ofNat number =
      (if number < 10 then [] else ofNat (number / 10)) ++ [UInt8.ofNat (0x30 + number % 10)] := by
  rw [ofNat, Nat.toDigits_eq_if (by omega)]
  split
  next h =>
    rw [ofChars, flatMap_singleton, encode_digitChar h, Nat.mod_eq_of_lt h]
    rfl
  next h =>
    rw [ofChars_append]
    refine congrArg (ofNat (number / 10) ++ ·) ?_
    rw [ofChars, flatMap_singleton, encode_digitChar (Nat.mod_lt _ (by omega))]

theorem ofNat_ne_nil (number : Nat) : ofNat number ≠ [] := by
  rw [ofNat_eq]
  exact append_ne_nil_of_right_ne_nil _ (cons_ne_nil _ _)

variable {byte : UInt8}

theorem isDigit_of_mem_ofNat (h : byte ∈ ofNat number) : isDigit byte := by
  have hdigit : ∀ digit < 10, isDigit (UInt8.ofNat (0x30 + digit)) := by decide
  induction number using Nat.strongRecOn with
  | ind number ih =>
    rw [ofNat_eq, mem_append, mem_singleton] at h
    rcases h with hmore | rfl
    · split at hmore
      · cases hmore
      next hlarge => exact ih _ (by omega) hmore
    · exact hdigit _ (Nat.mod_lt _ (by omega))

theorem head?_ofNat_append (hne : number ≠ 0) (rest : Text) :
    (ofNat number ++ rest).head? ≠ some zero := by
  have hdigit : ∀ digit < 10, digit ≠ 0 → UInt8.ofNat (0x30 + digit) ≠ zero := by decide
  induction number using Nat.strongRecOn generalizing rest with
  | ind number ih =>
    rw [ofNat_eq, append_assoc]
    split
    next h =>
      rw [Nat.mod_eq_of_lt h, nil_append, cons_append, head?_cons, ne_eq, Option.some_inj]
      exact hdigit _ h hne
    next h => exact ih _ (by omega) (by omega) _

theorem getLast?_ofNat (hne : number % 10 ≠ 0) : (ofNat number).getLast? ≠ some zero := by
  have hdigit : ∀ digit < 10, digit ≠ 0 → UInt8.ofNat (0x30 + digit) ≠ zero := by decide
  rw [ofNat_eq, getLast?_append, getLast?_singleton, Option.some_or, ne_eq, Option.some_inj]
  exact hdigit _ (Nat.mod_lt _ (by omega)) hne

/-! ## Reading -/

theorem value_append_singleton (digits : Text) (digit : UInt8) :
    value (digits ++ [digit]) = value digits * 10 + (digit.toNat - 0x30) := by
  rw [value, foldl_append]
  rfl

theorem value_append (left right : Text) :
    value (left ++ right) = value left * 10 ^ right.length + value right := by
  induction right using reverseRecOn with
  | nil => simp [value]
  | append_singleton right digit ih =>
    rw [← append_assoc, value_append_singleton, value_append_singleton, ih, length_append,
      length_singleton, Nat.pow_succ, Nat.add_mul, Nat.mul_assoc, Nat.add_assoc]

theorem value_replicate_zero (count : Nat) : value (replicate count zero) = 0 := by
  induction count with
  | zero => rfl
  | succ count ih =>
    rw [replicate_succ', value_append_singleton, ih]
    rfl

/-- A digit is zero and a number below ten. -/
theorem eq_ofNat_of_isDigit (h : isDigit byte) :
    byte.toNat - 0x30 < 10 ∧ byte = UInt8.ofNat (0x30 + (byte.toNat - 0x30)) := by
  simp only [isDigit, Bool.and_eq_true, decide_eq_true_eq, UInt8.le_iff_toNat_le,
    UInt8.reduceToNat] at h
  refine ⟨by omega, ?_⟩
  rw [show 0x30 + (byte.toNat - 0x30) = byte.toNat by omega, UInt8.ofNat_toNat]

section Value

variable (h : ∀ byte ∈ digits, isDigit byte)
include h

theorem value_lt : value digits < 10 ^ digits.length := by
  induction digits using reverseRecOn with
  | nil => exact Nat.one_pos
  | append_singleton digits digit ih =>
    have hlast := (eq_ofNat_of_isDigit (h digit (by simp))).1
    have := ih fun byte hbyte => h byte (mem_append_left _ hbyte)
    rw [value_append_singleton, length_append, length_singleton]
    omega

/-- Digits are zeros and the digits of their value. -/
theorem exists_zeros :
    ∃ count, digits =
      replicate count zero ++ if value digits = 0 then [] else ofNat (value digits) := by
  induction digits using reverseRecOn with
  | nil => exact ⟨0, rfl⟩
  | append_singleton digits digit ih =>
    obtain ⟨count, hdigits⟩ := ih fun byte hbyte => h byte (mem_append_left _ hbyte)
    obtain ⟨hlt, hdigit⟩ := eq_ofNat_of_isDigit (h digit (by simp))
    rw [value_append_singleton]
    generalize digit.toNat - 0x30 = last at hlt hdigit
    by_cases hzero : value digits = 0
    · rw [if_pos hzero, append_nil] at hdigits
      rw [hzero, Nat.zero_add, hdigits]
      by_cases hlast : last = 0
      · refine ⟨count + 1, ?_⟩
        rw [if_pos hlast, hdigit, hlast, append_nil, replicate_succ']
        rfl
      · refine ⟨count, ?_⟩
        rw [if_neg hlast, ofNat_eq, if_pos hlt, Nat.mod_eq_of_lt hlt, nil_append, hdigit]
    · rw [if_neg hzero] at hdigits
      refine ⟨count, ?_⟩
      rw [if_neg (by omega), ofNat_eq, if_neg (by omega), show
        (value digits * 10 + last) / 10 = value digits by omega, show
        (value digits * 10 + last) % 10 = last by omega, ← append_assoc, ← hdigits, ← hdigit]

/-- Digits without a zero in front are the digits of their value. -/
theorem eq_ofNat_value (hne : digits ≠ []) (hhead : digits.head? ≠ some zero) :
    digits = ofNat (value digits) := by
  obtain ⟨count, heq⟩ := exists_zeros h
  cases count with
  | zero =>
    split at heq
    · exact absurd heq hne
    · exact heq
  | succ count =>
    rw [heq] at hhead
    exact absurd rfl hhead

/-- A number whose last digit is not zero leaves a remainder. -/
theorem value_mod_ten (hne : digits ≠ []) (hlast : digits.getLast? ≠ some zero) :
    value digits % 10 ≠ 0 := by
  cases digits using reverseRecOn with
  | nil => exact absurd rfl hne
  | append_singleton rest last =>
    obtain ⟨hlt, heq⟩ := eq_ofNat_of_isDigit (h last (by simp))
    rw [getLast?_concat, ne_eq, Option.some_inj] at hlast
    rw [value_append_singleton]
    intro hzero
    rw [show last.toNat - 0x30 = 0 by omega] at heq
    exact hlast heq

end Value

theorem ofNat_mul_pow (hne : number ≠ 0) (count : Nat) :
    ofNat (number * 10 ^ count) = ofNat number ++ replicate count zero := by
  induction count with
  | zero => rw [Nat.pow_zero, Nat.mul_one, replicate_zero, append_nil]
  | succ count ih =>
    have hpos : 0 < number * 10 ^ count :=
      Nat.mul_pos (Nat.pos_of_ne_zero hne) (Nat.pow_pos (by omega))
    rw [Nat.pow_succ, ← Nat.mul_assoc, ofNat_eq, if_neg (by omega), Nat.mul_div_cancel _ (by omega),
      Nat.mul_mod_left, ih, replicate_succ', append_assoc]
    rfl

theorem isDigit_of_mem_shifted {count : Nat}
    (h : byte ∈ ofNat number ++ replicate count zero) : isDigit byte := by
  rcases mem_append.mp h with hmem | hmem
  · exact isDigit_of_mem_ofNat hmem
  · rw [eq_of_mem_replicate hmem]
    rfl

end Digits

namespace Decimal

open Digits (zero point)

/-- The digits of a decimal, with zeros in front up to the digit before the point. -/
def padded (decimal : Decimal) : Text :=
  replicate ((-decimal.scale).toNat + 1 - (Digits.ofNat decimal.digits).length) zero ++
    Digits.ofNat decimal.digits

variable {decimal : Decimal}

theorem isDigit_of_mem_padded {byte : UInt8} (h : byte ∈ decimal.padded) :
    isDigit byte := by
  rcases mem_append.mp h with hmem | hmem
  · rw [eq_of_mem_replicate hmem]
    rfl
  · exact Digits.isDigit_of_mem_ofNat hmem

theorem ofChars_eq_map {chars : List Char} (h : ∀ char ∈ chars, char.toNat < 0x80) :
    ofChars chars = chars.map fun char => UInt8.ofNat char.toNat := by
  induction chars with
  | nil => rfl
  | cons char later ih =>
    have hchar : String.utf8EncodeChar char = [UInt8.ofNat char.toNat] := by
      have : char.val.toNat ≤ 0x7F := Nat.le_of_lt_succ (h char mem_cons_self)
      simp only [String.utf8EncodeChar, if_pos this]
      rfl
    rw [ofChars, flatMap_cons, hchar]
    exact congrArg (UInt8.ofNat char.toNat :: ·)
      (ih fun char hmem => h char (mem_cons_of_mem _ hmem))

/-- How a decimal is displayed: its digits and as many zeros as its scale says, or its digits with a
point before as many of them. -/
theorem utf8_positional (decimal : Decimal) :
    utf8 decimal.positional =
      if 0 ≤ decimal.scale then
        Digits.ofNat decimal.digits ++ replicate decimal.scale.toNat zero
      else
        decimal.padded.take (decimal.padded.length - (-decimal.scale).toNat) ++
          point :: decimal.padded.drop (decimal.padded.length - (-decimal.scale).toNat) := by
  have hdigits : ∀ char ∈ Nat.toDigits 10 decimal.digits, char.toNat < 0x80 := by
    intro char hmem
    have hdigit := Nat.isDigit_of_mem_toDigits (by omega) (by omega) hmem
    simp only [Char.isDigit, Bool.and_eq_true, decide_eq_true_eq, UInt32.le_iff_toNat_le] at hdigit
    exact Nat.lt_of_le_of_lt hdigit.2 (by decide)
  have hzeros : ∀ count, ∀ char ∈ replicate count '0', char.toNat < 0x80 := by
    intro count char hmem
    rw [eq_of_mem_replicate hmem]
    decide
  have hzero : ∀ count, (replicate count '0').map (fun char => UInt8.ofNat char.toNat) =
      replicate count zero := fun count => map_replicate
  rw [utf8_eq, positional]
  dsimp only
  split
  · rw [String.toList_ofList, ofChars_append, ofChars_eq_map (hzeros _), hzero]
    rfl
  · -- Each character is one byte, so the encoding is cut where the characters are.
    generalize hpadded : replicate ((-decimal.scale).toNat + 1 -
      (Nat.toDigits 10 decimal.digits).length) '0' ++ Nat.toDigits 10 decimal.digits = chars
    have hascii : ∀ char ∈ chars, char.toNat < 0x80 := by
      intro char hmem
      rw [← hpadded, mem_append] at hmem
      exact hmem.elim (hzeros _ char) (hdigits char)
    have hbytes : decimal.padded = chars.map fun char => UInt8.ofNat char.toNat := by
      rw [padded, Digits.ofNat, ofChars_eq_map hdigits, length_map, ← hpadded, map_append, hzero]
    rw [String.toList_ofList, ofChars_eq_map, map_append, map_cons, map_take,
      map_drop, hbytes, length_map]
    · rfl
    · intro char hmem
      rw [mem_append, mem_cons] at hmem
      rcases hmem with hmem | rfl | hmem
      · exact hascii char (mem_of_mem_take hmem)
      · decide
      · exact hascii char (mem_of_mem_drop hmem)

theorem mem_positional {byte : UInt8} (h : byte ∈ utf8 decimal.positional) :
    isDigit byte ∨ byte = point := by
  rw [utf8_positional] at h
  split at h
  · exact .inl (Digits.isDigit_of_mem_shifted h)
  · rcases mem_append.mp h with hmem | hmem
    · exact .inl (isDigit_of_mem_padded (mem_of_mem_take hmem))
    · rcases mem_cons.mp hmem with rfl | hmem
      · exact .inr rfl
      · exact .inl (isDigit_of_mem_padded (mem_of_mem_drop hmem))

end Decimal

end Restyle
