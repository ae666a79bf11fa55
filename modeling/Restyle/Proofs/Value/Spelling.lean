import Restyle.Proofs.Decimal.Shortest
import Restyle.Proofs.Token.Pieces
import Restyle.Proofs.Value.Comments
import Restyle.Proofs.Value.Numeral

/-!
# Spellings of numbers

A number may be spelled with zeros in front or behind, without a digit before the point, or with a
point and nothing behind it. It is displayed without any of that: a number displayed as it is
spelled is reduced (`Numeral.isReduced_of_shown`), and a reduced number of at most fifteen
significant digits is displayed as it is spelled (`Numeral.shown_of_isReduced`). A number occurs in
its own display only as a whole: `Numeral.occurrences_shown`.
-/

namespace Restyle

open Alphabet Binary64 Byte Decimal Digits List Value

open Digits (zero point)

/-! ## Bytes and characters -/

theorem Text.chars_eq_map {text : Text} (h : ∀ byte ∈ text, byte < 0x80) :
    Text.chars text = text.map fun byte => Char.ofNat byte.toNat := by
  induction text with
  | nil => rfl
  | cons byte rest ih =>
    rw [Text.chars_ascii (h byte mem_cons_self), map_cons,
      ih fun other hmem => h other (mem_cons_of_mem _ hmem)]

/-- A byte below 80 is a digit if its character is one, and the byte of its character. -/
theorem Alphabet.isDigit_ofNat {byte : UInt8} (h : byte < 0x80) :
    isDigit (Char.ofNat byte.toNat) = Byte.isDigit byte ∧
      UInt8.ofNat (Char.ofNat byte.toNat).toNat = byte := by
  have hall : ∀ code < 128, isDigit (Char.ofNat code) = Byte.isDigit (UInt8.ofNat code) ∧
        UInt8.ofNat (Char.ofNat code).toNat = UInt8.ofNat code := by decide
  have := hall byte.toNat (UInt8.lt_iff_toNat_lt.mp h)
  rwa [UInt8.ofNat_toNat] at this

/-! ## Numerals -/

/-- Whether a number is spelled without a zero before another digit in front, with a digit before
the point, and with digits behind it that do not end in zero, if there is a point. -/
def Value.isReduced (text : Text) : Bool :=
  let unsigned := text.filter fun byte => byte != hyphen
  let whole := unsigned.takeWhile Byte.isDigit
  let tail := unsigned.dropWhile Byte.isDigit
  (whole == [zero] || whole.head?.any fun byte => byte != zero) &&
    tail.getLast?.all fun byte => byte != zero && byte != point

/-- The digits of a number without the zeros at both ends. -/
def Value.significant (text : Text) : Text :=
  let digits := (text.filter Byte.isDigit).dropWhile fun byte => byte == zero
  (digits.reverse.dropWhile fun byte => byte == zero).reverse

/-- An unsigned number is digits, with a point before, between or behind them if there is one. -/
theorem Value.exists_of_isUnsignedNumeral {chars : List Char} (h : isUnsignedNumeral chars) :
    ∃ whole rest, chars = whole ++ rest ∧ (∀ char ∈ whole, isDigit char) ∧
      (rest = [] ∧ whole ≠ [] ∨ ∃ fraction, rest = '.' :: fraction ∧
        (∀ char ∈ fraction, isDigit char) ∧ whole ++ fraction ≠ []) := by
  refine ⟨chars.takeWhile isDigit, chars.dropWhile isDigit,
    takeWhile_append_dropWhile.symm, all_eq_true.mp all_takeWhile, ?_⟩
  unfold isUnsignedNumeral at h
  split at h
  next fraction hwhole hrest =>
    obtain ⟨hfraction, hdigits⟩ := Bool.and_eq_true_iff.mp h
    refine .inr ⟨fraction, hrest, all_eq_true.mp hdigits, ?_⟩
    rw [hwhole, nil_append]
    simpa using hfraction
  · cases h
  next first more hwhole hrest =>
    rw [hwhole]
    exact .inl ⟨hrest, cons_ne_nil _ _⟩
  next first more fraction hwhole hrest =>
    refine .inr ⟨fraction, hrest, all_eq_true.mp h, ?_⟩
    rw [hwhole]
    exact cons_ne_nil _ _
  · cases h

/-- A number in digits: a sign, the digits before the point and, if there is a point, those behind
it. -/
structure Numeral where
  negative : Bool
  whole : Text
  fraction : Option Text
  isDigit_whole : ∀ byte ∈ whole, Byte.isDigit byte
  isDigit_fraction : ∀ byte ∈ fraction.getD [], Byte.isDigit byte
  digits_ne_nil : whole ++ fraction.getD [] ≠ []

namespace Numeral

variable (numeral : Numeral)

/-- The sign in front of the number. -/
def sign : Text :=
  if numeral.negative then [hyphen] else []

/-- The point and what stands behind it. -/
def tail : Text :=
  match numeral.fraction with
  | none => []
  | some digits => point :: digits

/-- The number as it is spelled. -/
def text : Text :=
  numeral.sign ++ (numeral.whole ++ numeral.tail)

/-- The value of the digits. -/
def decimal : Decimal :=
  ⟨value (numeral.whole ++ numeral.fraction.getD []),
    -((numeral.fraction.getD []).length : Int)⟩

/-- The number that the numeral is read as. -/
def number : Binary64 :=
  ofDecimal numeral.negative numeral.decimal.digits numeral.decimal.scale

/-- The number as it is displayed. -/
def shown : Text :=
  utf8 numeral.number.positional

/-! ## Reading -/

/-- There is no point and nothing behind it, or a point and digits. -/
theorem tail_cases : numeral.fraction = none ∧ numeral.tail = [] ∨
    ∃ digits, numeral.fraction = some digits ∧ numeral.tail = point :: digits ∧
      ∀ byte ∈ digits, Byte.isDigit byte := by
  have hdigits := numeral.isDigit_fraction
  unfold tail
  cases hfraction : numeral.fraction with
  | none => exact .inl ⟨rfl, rfl⟩
  | some digits => exact .inr ⟨digits, rfl, rfl, by rwa [hfraction] at hdigits⟩

variable {numeral} {decimal : Decimal} {byte : UInt8} (negative : Bool) {digits : Text}

/-- A digit is no hyphen, and neither is a point. -/
theorem ne_hyphen_of_mem (h : byte ∈ numeral.whole ++ numeral.tail) :
    byte ≠ hyphen ∧ (byte ≠ point → Byte.isDigit byte) := by
  have hdigit : ∀ byte, Byte.isDigit byte →
      byte ≠ hyphen ∧ (byte ≠ point → Byte.isDigit byte) := by
    intro byte hdigit
    refine ⟨?_, fun _ => hdigit⟩
    intro heq
    rw [heq] at hdigit
    cases hdigit
  rcases mem_append.mp h with hwhole | htail
  · exact hdigit byte (numeral.isDigit_whole byte hwhole)
  · obtain ⟨-, heq⟩ | ⟨digits, -, heq, hdigits⟩ := numeral.tail_cases
    · rw [heq] at htail
      cases htail
    · rw [heq] at htail
      rcases mem_cons.mp htail with rfl | hmem
      · exact ⟨by decide, fun h => absurd rfl h⟩
      · exact hdigit byte (hdigits byte hmem)

theorem filter_text (numeral : Numeral) :
    numeral.text.filter (fun byte => byte != hyphen) = numeral.whole ++ numeral.tail := by
  have hsign : numeral.sign.filter (fun byte => byte != hyphen) = [] := by
    unfold sign
    split <;> rfl
  rw [text, filter_append, hsign, nil_append, filter_eq_self]
  intro byte hmem
  exact bne_iff_ne.mpr (ne_hyphen_of_mem hmem).1

theorem takeWhile_isDigit (numeral : Numeral) :
    (numeral.whole ++ numeral.tail).takeWhile Byte.isDigit = numeral.whole ∧
      (numeral.whole ++ numeral.tail).dropWhile Byte.isDigit = numeral.tail := by
  rw [takeWhile_append_of_pos numeral.isDigit_whole, dropWhile_append_of_pos numeral.isDigit_whole]
  unfold tail
  split
  · exact ⟨append_nil _, rfl⟩
  · exact ⟨append_nil _, rfl⟩

theorem startsWith_hyphen (numeral : Numeral) :
    Text.startsWith (utf8 "-") numeral.text = numeral.negative := by
  have hutf8 : utf8 "-" = [hyphen] := by decide
  rw [hutf8, text, sign]
  cases hnegative : numeral.negative with
  | true => rfl
  | false =>
    cases hunsigned : numeral.whole ++ numeral.tail with
    | nil => rfl
    | cons byte rest =>
      have hmem : byte ∈ numeral.whole ++ numeral.tail := by
        rw [hunsigned]
        exact mem_cons_self
      have hne := (ne_hyphen_of_mem hmem).1
      show (hyphen == byte && _) = false
      rw [beq_eq_false_iff_ne.mpr hne.symm, Bool.false_and]

/-- An unsigned number in bytes below 80 is spelled by a numeral, with a sign or without. -/
theorem exists_of_isUnsignedNumeral {unsigned : Text} (hascii : ∀ byte ∈ unsigned, byte < 0x80)
    (h : isUnsignedNumeral (unsigned.map fun byte => Char.ofNat byte.toNat))
    (negative : Bool) :
    ∃ numeral : Numeral, numeral.negative = negative ∧
      numeral.whole ++ numeral.tail = unsigned := by
  -- The characters of digits are those of bytes that are digits.
  have hdigits : ∀ digits : Text, (∀ byte ∈ digits, byte ∈ unsigned) →
      (∀ char ∈ digits.map fun byte => Char.ofNat byte.toNat, isDigit char) →
      ∀ byte ∈ digits, Byte.isDigit byte := by
    intro digits hsub hchars byte hmem
    rw [← (isDigit_ofNat (hascii byte (hsub byte hmem))).1]
    exact hchars _ (mem_map_of_mem hmem)
  obtain ⟨_, _, hsplit, hwhole, hrest⟩ := Value.exists_of_isUnsignedNumeral h
  obtain ⟨whole, rest, rfl, rfl, rfl⟩ := map_eq_append_iff.mp hsplit
  have hwhole := hdigits whole (fun _ => mem_append_left _) hwhole
  rcases hrest with ⟨hnil, hne⟩ | ⟨_, hpoint, hfraction, hne⟩
  · rw [map_eq_nil_iff] at hnil
    rw [ne_eq, map_eq_nil_iff] at hne
    exact ⟨⟨negative, whole, none, hwhole, by simp, by simpa using hne⟩, rfl, by rw [hnil]; rfl⟩
  · obtain ⟨byte, digits, rfl, hbyte, rfl⟩ := map_eq_cons_iff.mp hpoint
    have hmem : ∀ other ∈ byte :: digits, other ∈ whole ++ byte :: digits := fun _ =>
      mem_append_right _
    have heq : byte = point := by
      rw [← (isDigit_ofNat (hascii byte (hmem byte mem_cons_self))).2, hbyte]
      rfl
    have hfraction := hdigits digits
      (fun other hother => hmem other (mem_cons_of_mem _ hother)) hfraction
    rw [← map_append, ne_eq, map_eq_nil_iff] at hne
    exact ⟨⟨negative, whole, some digits, hwhole, hfraction, hne⟩, rfl, by rw [heq]; rfl⟩

theorem mem_text (h : byte ∈ numeral.text) :
    Byte.isDigit byte ∨ byte = hyphen ∨ byte = point := by
  rcases mem_append.mp h with hsign | hmem
  · unfold sign at hsign
    split at hsign
    · exact .inr (.inl (mem_singleton.mp hsign))
    · cases hsign
  · by_cases hpoint : byte = point
    · exact .inr (.inr hpoint)
    · exact .inl ((ne_hyphen_of_mem hmem).2 hpoint)

theorem ne_of_mem_text {other : UInt8} (h : byte ∈ numeral.text)
    (hother : ¬ (Byte.isDigit other ∨ other = hyphen ∨ other = point)) : byte ≠ other :=
  fun heq => hother (heq ▸ mem_text h)

theorem lt_of_mem_text (h : byte ∈ numeral.text) : byte < 0x80 := by
  rcases mem_text h with hdigit | rfl | rfl
  · obtain ⟨-, hle⟩ := Bool.and_eq_true_iff.mp hdigit
    exact UInt8.lt_of_le_of_lt (of_decide_eq_true hle) (by decide)
  · decide
  · decide

theorem isUnsignedNumeral_map (numeral : Numeral) :
    isUnsignedNumeral
      ((numeral.whole ++ numeral.tail).map fun byte => Char.ofNat byte.toNat) := by
  have hchars : ∀ digits : Text, (∀ byte ∈ digits, Byte.isDigit byte ∧ byte < 0x80) →
      ∀ char ∈ digits.map fun byte => Char.ofNat byte.toNat, isDigit char := by
    intro digits hdigits char hmem
    obtain ⟨byte, hbyte, rfl⟩ := mem_map.mp hmem
    rw [(isDigit_ofNat (hdigits byte hbyte).2).1]
    exact (hdigits byte hbyte).1
  have hascii : ∀ byte ∈ numeral.whole ++ numeral.tail, byte < 0x80 := fun byte hmem =>
    lt_of_mem_text (mem_append_right _ hmem)
  have hwhole := hchars numeral.whole fun byte hmem =>
    ⟨numeral.isDigit_whole byte hmem, hascii byte (mem_append_left _ hmem)⟩
  have hne := numeral.digits_ne_nil
  rw [map_append]
  unfold isUnsignedNumeral
  rw [takeWhile_append_of_pos hwhole, dropWhile_append_of_pos hwhole]
  obtain ⟨hfraction, htail⟩ | ⟨digits, hfraction, htail, hdigits⟩ := numeral.tail_cases
  · rw [hfraction, Option.getD_none, append_nil] at hne
    obtain ⟨first, more, hcons⟩ := exists_cons_of_ne_nil hne
    rw [htail, hcons]
    rfl
  · rw [hfraction, Option.getD_some] at hne
    rw [htail] at hascii ⊢
    have hall := all_eq_true.mpr (hchars digits fun byte hmem => ⟨hdigits byte hmem,
      hascii byte (mem_append_right _ (mem_cons_of_mem _ hmem))⟩)
    cases hcases : numeral.whole with
    | nil =>
      rw [hcases, nil_append] at hne
      show (!(digits.map _).isEmpty && _)
      rw [hall, isEmpty_map, isEmpty_eq_false_iff.mpr hne]
      rfl
    | cons first more => exact hall

theorem isNumeral_text (numeral : Numeral) : isNumeral numeral.text := by
  have hunsigned := numeral.isUnsignedNumeral_map
  rw [isNumeral, Text.chars_eq_map fun byte => lt_of_mem_text]
  cases hnegative : numeral.negative with
  | true =>
    rw [text, sign, hnegative]
    exact hunsigned
  | false =>
    have htext : numeral.text = numeral.whole ++ numeral.tail := by
      rw [text, sign, hnegative]
      rfl
    rw [htext]
    split
    next unsigned hchars =>
      -- Without a sign the first byte is no hyphen.
      obtain ⟨byte, rest, hcons, hbyte, -⟩ := map_eq_cons_iff.mp hchars
      have hmem : byte ∈ numeral.whole ++ numeral.tail := hcons ▸ mem_cons_self
      have hback := (isDigit_ofNat (lt_of_mem_text (htext ▸ hmem))).2
      rw [hbyte] at hback
      exact absurd hback.symm (ne_hyphen_of_mem hmem).1
    · exact hunsigned

theorem readNumeral_text (numeral : Numeral) :
    readNumeral? numeral.text = some numeral.number := by
  have hascii : (numeral.text.all fun byte => decide (byte < 0x80)) :=
    all_eq_true.mpr fun byte hmem => decide_eq_true (lt_of_mem_text hmem)
  have htail : numeral.tail.drop 1 = numeral.fraction.getD [] := by
    obtain ⟨hfraction, htail⟩ | ⟨digits, hfraction, htail, -⟩ := numeral.tail_cases
    all_goals rw [hfraction, htail]; rfl
  rw [readNumeral?, isNumeral_text, hascii, Bool.and_true, if_pos rfl]
  simp only [filter_text, takeWhile_isDigit, htail, startsWith_hyphen]
  rfl

theorem readNumeral_eq_some_iff {text : Text} {number : Binary64} :
    readNumeral? text = some number ↔
      ∃ numeral : Numeral, numeral.text = text ∧ numeral.number = number := by
  constructor
  · intro h
    have hcondition : (isNumeral text && text.all (· < 0x80)) := by
      unfold readNumeral? at h
      split at h
      next hcondition => exact hcondition
      · cases h
    simp only [Bool.and_eq_true, all_eq_true, decide_eq_true_eq] at hcondition
    obtain ⟨hnumeral, hascii⟩ := hcondition
    have hspelled : ∃ numeral : Numeral, numeral.text = text := by
      rw [isNumeral, Text.chars_eq_map hascii] at hnumeral
      split at hnumeral
      next unsigned hchars =>
        obtain ⟨byte, rest, rfl, hbyte, rfl⟩ := map_eq_cons_iff.mp hchars
        have heq : byte = hyphen := by
          rw [← (isDigit_ofNat (hascii byte mem_cons_self)).2, hbyte]
          rfl
        obtain ⟨numeral, hnegative, hunsigned⟩ := exists_of_isUnsignedNumeral
          (fun other hmem => hascii other (mem_cons_of_mem _ hmem)) hnumeral true
        refine ⟨numeral, ?_⟩
        rw [text, sign, hnegative, hunsigned, heq]
        rfl
      · obtain ⟨numeral, hnegative, hunsigned⟩ := exists_of_isUnsignedNumeral hascii hnumeral false
        refine ⟨numeral, ?_⟩
        rw [Numeral.text, sign, hnegative, hunsigned]
        rfl
    obtain ⟨numeral, rfl⟩ := hspelled
    exact ⟨numeral, rfl, Option.some.inj ((readNumeral_text numeral).symm.trans h)⟩
  · rintro ⟨numeral, rfl, rfl⟩
    exact readNumeral_text numeral

/-! ## Reduced numerals -/

theorem isReduced_iff (numeral : Numeral) :
    isReduced numeral.text ↔
      (numeral.whole = [zero] ∨ numeral.whole ≠ [] ∧ numeral.whole.head? ≠ some zero) ∧
        ∀ digits, numeral.fraction = some digits → digits ≠ [] ∧ digits.getLast? ≠ some zero := by
  have hwhole : (numeral.whole == [zero] || numeral.whole.head?.any fun byte => byte != zero) =
      true ↔ numeral.whole = [zero] ∨ numeral.whole ≠ [] ∧ numeral.whole.head? ≠ some zero := by
    rw [Bool.or_eq_true, beq_iff_eq]
    cases numeral.whole with
    | nil | cons first rest => simp
  have htail : (numeral.tail.getLast?.all fun byte => byte != zero && byte != point) ↔
      ∀ digits, numeral.fraction = some digits → digits ≠ [] ∧ digits.getLast? ≠ some zero := by
    obtain ⟨hfraction, htail⟩ | ⟨digits, hfraction, htail, hdigits⟩ := numeral.tail_cases
    · simp [hfraction, htail]
    · rw [hfraction, htail]
      rcases eq_nil_or_concat' digits with rfl | ⟨rest, last, rfl⟩
      · simp
      · have hpoint : last ≠ point := by
          intro heq
          have := hdigits last (by simp)
          rw [heq] at this
          cases this
        have hlast : (point :: (rest ++ [last])).getLast? = some last := by
          rw [← cons_append, getLast?_concat]
        simp [hlast, hpoint]
  simp only [isReduced, filter_text, takeWhile_isDigit, Bool.and_eq_true, hwhole, htail]

theorem filter_isDigit (numeral : Numeral) :
    numeral.text.filter Byte.isDigit = numeral.whole ++ numeral.fraction.getD [] := by
  have hsign : numeral.sign.filter Byte.isDigit = [] := by
    unfold sign
    split <;> rfl
  have htail : numeral.tail.filter Byte.isDigit = numeral.fraction.getD [] := by
    obtain ⟨hfraction, htail⟩ | ⟨digits, hfraction, htail, hdigits⟩ := numeral.tail_cases
    · rw [hfraction, htail]
      rfl
    · rw [hfraction, htail, filter_cons_of_neg (by decide), filter_eq_self.mpr hdigits,
        Option.getD_some]
  rw [text, filter_append, filter_append, hsign, htail, nil_append,
    filter_eq_self.mpr numeral.isDigit_whole]

theorem isDigit_of_mem (numeral : Numeral) (h : byte ∈ numeral.whole ++ numeral.fraction.getD []) :
    Byte.isDigit byte :=
  (mem_append.mp h).elim (numeral.isDigit_whole byte) (numeral.isDigit_fraction byte)

/-- A reduced numeral with a point does not end in zero. -/
theorem mod_ten_of_isReduced (h : isReduced numeral.text)
    (hfraction : numeral.fraction ≠ none) : numeral.decimal.digits % 10 ≠ 0 := by
  obtain ⟨digits, hdigits⟩ := Option.ne_none_iff_exists'.mp hfraction
  obtain ⟨hne, hlast⟩ := ((isReduced_iff numeral).mp h).2 digits hdigits
  refine value_mod_ten (fun _ => numeral.isDigit_of_mem) numeral.digits_ne_nil ?_
  rwa [hdigits, Option.getD_some, getLast?_append_of_ne_nil _ hne]

/-- The digits of a reduced numeral with a point are not padded beyond the one before it. -/
theorem padded_decimal (h : isReduced numeral.text)
    (hfraction : numeral.fraction = some digits) :
    numeral.decimal.padded = numeral.whole ++ digits := by
  obtain ⟨hwhole, htail⟩ := (isReduced_iff numeral).mp h
  have hmod := mod_ten_of_isReduced h (by simp [hfraction])
  have hvalue : numeral.decimal.digits = value (numeral.whole ++ digits) := by
    rw [decimal, hfraction, Option.getD_some]
  obtain ⟨count, heq⟩ := exists_zeros (fun byte hmem => numeral.isDigit_of_mem hmem)
  rw [hfraction, Option.getD_some, if_neg (by omega)] at heq
  have hlength := congrArg length heq
  rw [length_append, length_append, length_replicate] at hlength
  have hcount : digits.length + 1 - (ofNat (value (numeral.whole ++ digits))).length =
      count := by
    rcases hwhole with hzero | ⟨hne', hhead⟩
    · rw [hzero, length_singleton] at hlength
      rw [hzero]
      omega
    · -- There is no zero in front, so there are at least as many digits as places and one more.
      have hpos := length_pos_iff.mpr hne'
      cases count with
      | zero => omega
      | succ count =>
        obtain ⟨first, rest, hcons⟩ := exists_cons_of_ne_nil hne'
        rw [hcons, cons_append, replicate_succ, cons_append] at heq
        rw [hcons, head?_cons, (cons.inj heq).1] at hhead
        exact absurd rfl hhead
  rw [padded, decimal, hfraction, Option.getD_some, neg_neg, Int.toNat_natCast, hcount]
  exact heq.symm

/-- A reduced numeral is displayed digit by digit as it is spelled. -/
theorem utf8_positional_of_isReduced (h : isReduced numeral.text) :
    utf8 numeral.decimal.positional = numeral.whole ++ numeral.tail := by
  obtain ⟨hwhole, htail⟩ := (isReduced_iff numeral).mp h
  rw [utf8_positional]
  obtain ⟨hfraction, hnone⟩ | ⟨digits, hfraction, hpoint, -⟩ := numeral.tail_cases
  · have hdecimal : numeral.decimal = ⟨value numeral.whole, 0⟩ := by
      rw [decimal, hfraction, Option.getD_none, append_nil]
      rfl
    rw [hdecimal, if_pos (Int.le_refl 0), hnone]
    refine congrArg (· ++ []) ?_
    rcases hwhole with hzero | ⟨hne, hhead⟩
    · rw [hzero]
      decide
    · exact (eq_ofNat_value numeral.isDigit_whole hne hhead).symm
  · have hpos := length_pos_iff.mpr (htail digits hfraction).1
    have hscale : numeral.decimal.scale = -(digits.length : Int) := by
      rw [decimal, hfraction, Option.getD_some]
    rw [if_neg (by omega), padded_decimal h hfraction, hscale, neg_neg, Int.toNat_natCast,
      length_append, Nat.add_sub_cancel, take_left, drop_left, hpoint]

/-! ## What is displayed -/

/-- A decimal without zeros at its end is displayed as any decimal of its value that has none behind
the point. -/
theorem utf8_positional_congr {other : Decimal} (h : decimal.toRat = other.toRat)
    (hdecimal : decimal.digits % 10 ≠ 0) (hother : other.digits % 10 ≠ 0 ∨ other.scale = 0) :
    utf8 decimal.positional = utf8 other.positional := by
  rcases hother with hother | hscale
  · rw [eq_of_toRat_eq h hdecimal hother]
  · have hle := scale_le_of_toRat_eq h hdecimal
    have hdigits := digits_eq_of_toRat_eq h.symm hle
    rw [hscale, Int.sub_zero] at hdigits
    rw [utf8_positional, utf8_positional, if_pos (by omega), if_pos (by omega), hdigits, hscale,
      ofNat_mul_pow (by omega), Int.toNat_zero, replicate_zero, append_nil]

/-- A decimal without places is displayed as a reduced numeral without a point. -/
theorem exists_reduced_of_nonneg (hscale : 0 ≤ decimal.scale)
    (h : decimal.digits ≠ 0 ∨ decimal = ⟨0, 0⟩) :
    ∃ reduced : Numeral, reduced.negative = negative ∧ reduced.fraction = none ∧
      reduced.whole ++ reduced.tail = utf8 decimal.positional ∧
      isReduced reduced.text := by
  rw [utf8_positional, if_pos hscale]
  have hne : ofNat decimal.digits ++ replicate decimal.scale.toNat zero ≠ [] :=
    append_ne_nil_of_left_ne_nil (ofNat_ne_nil _) _
  have hwhole : ofNat decimal.digits ++ replicate decimal.scale.toNat zero = [zero] ∨
      ofNat decimal.digits ++ replicate decimal.scale.toNat zero ≠ [] ∧
        (ofNat decimal.digits ++ replicate decimal.scale.toNat zero).head? ≠
          some zero := by
    rcases h with hdigits | rfl
    · exact .inr ⟨hne, head?_ofNat_append hdigits _⟩
    · exact .inl (by decide)
  refine ⟨⟨negative, _, none, fun _ => isDigit_of_mem_shifted, by simp, by simpa using hne⟩,
    rfl, rfl, append_nil _, (isReduced_iff _).mpr ⟨hwhole, by simp⟩⟩

/-- A decimal with places and without zeros at its end is displayed as a reduced numeral. -/
theorem exists_reduced_of_neg (hscale : decimal.scale < 0) (h : decimal.digits % 10 ≠ 0) :
    ∃ reduced : Numeral, reduced.negative = negative ∧
      reduced.whole ++ reduced.tail = utf8 decimal.positional ∧
      isReduced reduced.text := by
  rw [utf8_positional, if_neg (by omega)]
  have hlast : decimal.padded.getLast? ≠ some zero := by
    rw [padded, getLast?_append_of_ne_nil _ (ofNat_ne_nil _)]
    exact getLast?_ofNat h
  have hlength : decimal.padded.length = (-decimal.scale).toNat + 1 -
      (ofNat decimal.digits).length + (ofNat decimal.digits).length := by
    rw [padded, length_append, length_replicate]
  generalize hwhole : decimal.padded.length - (-decimal.scale).toNat = before
  have hfraction : decimal.padded.drop before ≠ [] := by
    rw [ne_eq, drop_eq_nil_iff]
    omega
  refine ⟨⟨negative, decimal.padded.take before, some (decimal.padded.drop before),
    fun _ hmem => isDigit_of_mem_padded (mem_of_mem_take hmem),
    fun _ hmem => isDigit_of_mem_padded (mem_of_mem_drop hmem),
    append_ne_nil_of_right_ne_nil _ hfraction⟩, rfl, rfl, (isReduced_iff _).mpr ⟨?_, ?_⟩⟩
  · show decimal.padded.take before = [zero] ∨
      decimal.padded.take before ≠ [] ∧ (decimal.padded.take before).head? ≠ some zero
    rcases Nat.lt_or_ge (-decimal.scale).toNat (ofNat decimal.digits).length with hlt | hge
    · -- There are more digits than places, so nothing is padded.
      have hpadded : decimal.padded = ofNat decimal.digits ++ [] := by
        rw [padded, Nat.sub_eq_zero_of_le hlt, replicate_zero, nil_append, append_nil]
      refine .inr ⟨?_, ?_⟩
      · rw [ne_eq, take_eq_nil_iff, ← length_eq_zero_iff]
        omega
      · rw [head?_take, if_neg (by omega), hpadded]
        exact head?_ofNat_append (by omega) _
    · refine .inl ?_
      rw [show before = 1 by omega, padded, show (-decimal.scale).toNat + 1 -
        (ofNat decimal.digits).length = (-decimal.scale).toNat -
        (ofNat decimal.digits).length + 1 by omega, replicate_succ]
      rfl
  · intro digits heq
    obtain rfl := Option.some.inj heq
    refine ⟨hfraction, ?_⟩
    rwa [getLast?_drop, if_neg (by omega)]

/-- A decimal without zeros at its end is displayed as a reduced numeral. -/
theorem exists_reduced (h : decimal.digits % 10 ≠ 0 ∨ decimal = ⟨0, 0⟩) :
    ∃ reduced : Numeral, reduced.negative = negative ∧
      reduced.whole ++ reduced.tail = utf8 decimal.positional ∧
      isReduced reduced.text ∧ (0 ≤ decimal.scale → reduced.fraction = none) := by
  by_cases hscale : 0 ≤ decimal.scale
  · obtain ⟨reduced, hsign, hnone, htext, hreduced⟩ :=
      exists_reduced_of_nonneg negative hscale (h.imp_left (by omega))
    exact ⟨reduced, hsign, htext, hreduced, fun _ => hnone⟩
  · have hdigits := h.resolve_right fun heq => hscale (by rw [heq])
    obtain ⟨reduced, hsign, htext, hreduced⟩ := exists_reduced_of_neg negative (by omega) hdigits
    exact ⟨reduced, hsign, htext, hreduced, fun hnonneg => absurd hnonneg hscale⟩

/-- A numeral is displayed as a reduced one of its sign, without a point if it has none. Beyond the
range it is displayed as infinity. -/
theorem shown_cases (numeral : Numeral) :
    (∃ reduced : Numeral, numeral.shown = reduced.text ∧ isReduced reduced.text ∧
      reduced.negative = numeral.negative ∧ (numeral.fraction = none → reduced.fraction = none)) ∨
    numeral.shown = numeral.sign ++ utf8 "inf" := by
  have hnegative : numeral.number.isNegative = numeral.negative := isNegative_ofDecimal ..
  unfold shown
  cases hnumber : numeral.number with
  | infinite negative =>
    rw [hnumber, isNegative] at hnegative
    refine .inr ?_
    rw [sign, ← hnegative]
    cases negative <;> decide
  | finite negative mantissa exponent =>
    rw [hnumber, isNegative] at hnegative
    rw [utf8_positional_finite, hnegative]
    generalize hdecimal : (if mantissa = 0 then (⟨0, 0⟩ : Decimal)
      else shortest mantissa exponent) = decimal
    have hshown : (decimal.digits % 10 ≠ 0 ∨ decimal = ⟨0, 0⟩) ∧
        (numeral.fraction = none → 0 ≤ decimal.scale) := by
      rw [← hdecimal]
      split
      · exact ⟨.inr rfl, fun _ => Int.le_refl 0⟩
      next hne =>
        have hpos := Nat.pos_of_ne_zero hne
        have hleast := (holds_of_ofDecimal hnumber hpos).1
        refine ⟨shortest_mod_ten hpos hleast, fun hnone => ?_⟩
        -- A number without a point is whole, and is displayed without places.
        have hplaces : 0 ≤ numeral.decimal.scale := by
          rw [Numeral.decimal, hnone]
          exact Int.le_refl 0
        obtain ⟨whole, hwhole⟩ := exists_natCast_of_ofDecimal hplaces hnumber
        exact scale_shortest_nonneg hpos hleast hwhole
    obtain ⟨reduced, hsign, htext, hreduced, hscale⟩ := exists_reduced numeral.negative hshown.1
    refine .inl ⟨reduced, ?_, hreduced, hsign, fun hnone => hscale (hshown.2 hnone)⟩
    rw [text, sign, hsign, htext]

/-- The digits of a numeral are its significant digits with zeros around them. -/
theorem exists_significant (numeral : Numeral) :
    ∃ front back, numeral.whole ++ numeral.fraction.getD [] =
      replicate front zero ++ (significant numeral.text ++ replicate back zero) := by
  have hzeros : ∀ digits : Text, ∃ count, digits =
      replicate count zero ++ digits.dropWhile fun byte => byte == zero := by
    intro digits
    refine ⟨(digits.takeWhile fun byte => byte == zero).length, ?_⟩
    rw [← eq_replicate_of_mem fun byte hmem => ?_, takeWhile_append_dropWhile]
    exact eq_of_beq (all_eq_true.mp all_takeWhile byte hmem)
  obtain ⟨front, hfront⟩ := hzeros (numeral.whole ++ numeral.fraction.getD [])
  obtain ⟨back, hback⟩ := hzeros
    ((numeral.whole ++ numeral.fraction.getD []).dropWhile fun byte => byte == zero).reverse
  refine ⟨front, back, ?_⟩
  rw [significant, filter_isDigit]
  nth_rewrite 1 [hfront]
  rw [reverse_eq_iff, reverse_append, reverse_replicate] at hback
  rw [← hback]

/-- The value of a numeral is that of its significant digits. -/
theorem exists_decimal (hdigits : (significant numeral.text).length ≤ 15) :
    ∃ decimal : Decimal, decimal.digits < 10 ^ 15 ∧ decimal.toRat = numeral.decimal.toRat := by
  obtain ⟨front, back, heq⟩ := exists_significant numeral
  have hmem : ∀ byte ∈ significant numeral.text, Byte.isDigit byte := by
    intro byte hbyte
    refine numeral.isDigit_of_mem ?_
    rw [heq]
    exact mem_append_right _ (mem_append_left _ hbyte)
  refine ⟨⟨value (significant numeral.text), back + numeral.decimal.scale⟩, ?_, ?_⟩
  · exact (value_lt hmem).trans_le (Nat.pow_le_pow_right (by omega) hdigits)
  · have hvalue : numeral.decimal.digits = value (significant numeral.text) * 10 ^ back := by
      rw [decimal, heq, value_append, value_replicate_zero, Nat.zero_mul, Nat.zero_add,
        value_append, value_replicate_zero, length_replicate, Nat.add_zero]
    rw [toRat, toRat, hvalue, zpow_add₀ (by norm_num), zpow_natCast]
    push_cast
    ring

/-- A numeral that is not too long is far from the ends of the range. -/
theorem toRat_bounds (hne : numeral.decimal.digits ≠ 0) (hlength : numeral.text.length ≤ 300) :
    (10 : ℚ) ^ (-300 : Int) ≤ numeral.decimal.toRat ∧ numeral.decimal.toRat < 10 ^ (300 : Int) := by
  have hcount := length_filter_le Byte.isDigit numeral.text
  rw [filter_isDigit, length_append] at hcount
  have hscale : numeral.decimal.scale = -((numeral.fraction.getD []).length : Int) := rfl
  have hlow : (10 : ℚ) ^ (-300 : Int) ≤ 10 ^ numeral.decimal.scale :=
    zpow_le_zpow_right₀ (by norm_num) (by omega)
  have hhigh : (10 : ℚ) ^ numeral.decimal.scale ≤ 1 :=
    zpow_le_one_of_nonpos₀ (by norm_num) (by omega)
  have hone : (1 : ℚ) ≤ numeral.decimal.digits := Nat.one_le_cast.mpr (by omega)
  have hdigits : (numeral.decimal.digits : ℚ) < 10 ^ (300 : Int) := by
    have hlt : (numeral.decimal.digits : ℚ) < _ :=
      Nat.cast_lt.mpr (value_lt fun _ => numeral.isDigit_of_mem)
    rw [Nat.cast_pow, Nat.cast_ofNat, ← zpow_natCast, length_append] at hlt
    exact hlt.trans_le (zpow_le_zpow_right₀ (by norm_num) (by omega))
  have hunit := ten_zpow_pos numeral.decimal.scale
  constructor
  · exact hlow.trans (le_mul_of_one_le_left hunit.le hone)
  · exact (mul_le_of_le_one_right (by positivity) hhigh).trans_lt hdigits

/-- A reduced numeral of at most fifteen significant digits is displayed as it is spelled. -/
theorem shown_of_isReduced (h : isReduced numeral.text)
    (hdigits : (significant numeral.text).length ≤ 15) (hlength : numeral.text.length ≤ 300) :
    numeral.shown = numeral.text := by
  rw [text, ← utf8_positional_of_isReduced h, sign]
  by_cases hzero : numeral.decimal.digits = 0
  · have hfraction : numeral.fraction = none := by
      by_contra hsome
      have := mod_ten_of_isReduced h hsome
      omega
    have hdecimal : numeral.decimal = ⟨0, 0⟩ := by
      rw [decimal, hfraction] at hzero ⊢
      exact Decimal.mk.injEq .. |>.mpr ⟨hzero, rfl⟩
    rw [shown, number, hdecimal]
    exact utf8_positional_finite numeral.negative 0 _
  · obtain ⟨hlow, hhigh⟩ := toRat_bounds hzero hlength
    obtain ⟨mantissa, exponent, hnumber, hnormal⟩ := exists_of_ofDecimal numeral.negative hlow hhigh
    obtain ⟨hleast, hholds⟩ := holds_of_ofDecimal hnumber (by omega)
    obtain ⟨decimal, hlt, hvalue⟩ := exists_decimal hdigits
    rw [← hvalue] at hholds
    obtain ⟨heq, hmod⟩ := toRat_shortest hleast hnormal hlt hholds
    have hother : numeral.decimal.digits % 10 ≠ 0 ∨ numeral.decimal.scale = 0 := by
      cases hfraction : numeral.fraction with
      | none =>
        rw [Numeral.decimal, hfraction]
        exact .inr rfl
      | some digits => exact .inl (mod_ten_of_isReduced h (by simp [hfraction]))
    rw [shown, number, hnumber, utf8_positional_finite, if_neg (by omega : mantissa ≠ 0),
      utf8_positional_congr (heq.trans hvalue) hmod hother]

theorem isReduced_of_shown (h : numeral.shown = numeral.text) :
    isReduced numeral.text := by
  rcases shown_cases numeral with ⟨reduced, htext, hreduced, -, -⟩ | hinfinite
  · rwa [← h, htext]
  · -- Infinity is displayed without digits.
    have hdigits := filter_isDigit numeral
    rw [← h, hinfinite, sign] at hdigits
    refine absurd (hdigits.symm.trans ?_) numeral.digits_ne_nil
    cases numeral.negative <;> decide

theorem comments_text (numeral : Numeral) (dialect : Dialect) :
    dialect.comments numeral.text = [] := by
  refine Marked.runs_of_unmarked ?_
  rw [Dialect.marks, ← Scan.marksUntil_none]
  exact Scan.unmarked_of_slash_notMem (fun hmem => ne_of_mem_text hmem (by decide) rfl) rfl none

/-! ## Occurrences -/

/-- A numeral has one hyphen if it is negative, and one point if there are digits behind it. -/
theorem count_text (numeral : Numeral) :
    numeral.text.count hyphen = (if numeral.negative then 1 else 0) ∧
      numeral.text.count point = (if numeral.fraction = none then 0 else 1) := by
  have hunsigned : (numeral.whole ++ numeral.tail).count hyphen = 0 :=
    count_eq_zero.mpr fun hmem => (ne_hyphen_of_mem hmem).1 rfl
  have hdigits : ∀ digits : Text, (∀ byte ∈ digits, Byte.isDigit byte) →
      digits.count point = 0 := by
    intro digits hdigits
    refine count_eq_zero.mpr fun hmem => ?_
    cases hdigits point hmem
  have htail : numeral.tail.count point = if numeral.fraction = none then 0 else 1 := by
    obtain ⟨hfraction, htail⟩ | ⟨digits, hfraction, htail, hfractional⟩ := numeral.tail_cases
    · rw [hfraction, htail]
      rfl
    · rw [hfraction, htail, count_cons_self, hdigits digits hfractional]
      rfl
  have hsign : numeral.sign.count hyphen = (if numeral.negative then 1 else 0) ∧
      numeral.sign.count point = 0 := by
    unfold sign
    split <;> exact ⟨rfl, rfl⟩
  constructor
  · rw [text, count_append, hsign.1, hunsigned, Nat.add_zero]
  · rw [text, count_append, count_append, hsign.2, hdigits _ numeral.isDigit_whole, htail,
      Nat.zero_add, Nat.zero_add]

/-- What is displayed has no other bytes than letters, digits, points and hyphens, and of the last
two no more than the numeral. -/
theorem count_shown (numeral : Numeral) :
    (∀ byte ∈ numeral.shown,
      isAlphanumeric byte ∨ byte = hyphen ∨ byte = point) ∧
    numeral.shown.count hyphen ≤ numeral.text.count hyphen ∧
    numeral.shown.count point ≤ numeral.text.count point := by
  obtain ⟨hhyphen, hpoint⟩ := count_text numeral
  rw [hhyphen, hpoint]
  rcases shown_cases numeral with ⟨reduced, htext, -, hnegative, hnone⟩ | hinfinite
  · obtain ⟨hhyphen', hpoint'⟩ := count_text reduced
    rw [htext, hhyphen', hpoint', hnegative]
    refine ⟨fun byte hmem => (mem_text hmem).imp_left isAlphanumeric_of_isDigit, Nat.le_refl _, ?_⟩
    split
    · exact Nat.zero_le _
    next hsome => rw [if_neg fun heq => hsome (hnone heq)]
  · rw [hinfinite, sign]
    refine ⟨?_, ?_, ?_⟩
    · cases numeral.negative <;> decide +kernel
    · cases numeral.negative <;> decide
    · have hletters : ∀ negative : Bool,
          ((if negative then [hyphen] else []) ++ utf8 "inf").count point = 0 := by
        decide
      rw [hletters]
      exact Nat.zero_le _

end Numeral

namespace Token

/-- In a text of letters, digits, points and hyphens that has no more points and hyphens than the
token, the token stands by itself only if it is the whole text. -/
theorem eq_of_mem_occurrences {token text : Text} {offset : Nat}
    (h : offset ∈ occurrences token text)
    (hbytes : ∀ byte ∈ text, isAlphanumeric byte ∨ byte = hyphen ∨ byte = point)
    (hhyphen : text.count hyphen ≤ token.count hyphen)
    (hpoint : text.count point ≤ token.count point) : text = token := by
  have hstands := standsAt_of_mem_occurrences h
  rw [standsAt, Bool.and_eq_true, Bool.and_eq_true, isPrefixOf_iff_prefix] at hstands
  obtain ⟨⟨⟨right, hright⟩, hleftOpen⟩, hrightOpen⟩ := hstands
  have htext : text = text.take offset ++ (token ++ right) := by
    rw [hright, take_append_drop]
  generalize text.take offset = left at htext hleftOpen
  rw [← hright, drop_left] at hrightOpen
  rw [htext, count_append, count_append] at hhyphen hpoint
  -- Beside the token there are no points and no hyphens, so what stands there is not open.
  have hsides : ∀ byte, byte ∈ left ∨ byte ∈ right → isAlphanumeric byte := by
    intro byte hmem
    have hnone : ∀ other, left.count other + (token.count other + right.count other) ≤
        token.count other → byte ≠ other := by
      intro other hle heq
      rw [← heq] at hle
      rcases hmem with hmem | hmem
      · have := count_pos_iff.mpr hmem
        omega
      · have := count_pos_iff.mpr hmem
        omega
    have hmem' : byte ∈ text := by
      rw [htext]
      rcases hmem with hmem | hmem
      · exact mem_append_left _ hmem
      · exact mem_append_right _ (mem_append_right _ hmem)
    rcases hbytes byte hmem' with halphanumeric | heq | heq
    · exact halphanumeric
    · exact absurd heq (hnone _ hhyphen)
    · exact absurd heq (hnone _ hpoint)
  have hleft : left = [] := by
    cases hlast : left.getLast? with
    | none => exact getLast?_eq_none_iff.mp hlast
    | some byte =>
      rw [hlast, leftOpen, hsides byte (.inl (mem_of_getLast? hlast))] at hleftOpen
      cases hleftOpen
  have hright : right = [] := by
    cases hhead : right.head? with
    | none => exact head?_eq_none_iff.mp hhead
    | some byte =>
      rw [hhead, rightOpen, hsides byte (.inr (mem_of_head? hhead))] at hrightOpen
      cases hrightOpen
  rw [htext, hleft, hright, nil_append, append_nil]

theorem occurrences_self {token : Text} (hne : token ≠ []) : occurrences token token = [0] := by
  obtain ⟨byte, rest, rfl⟩ := exists_cons_of_ne_nil hne
  have hstands : standsAt (byte :: rest) none (byte :: rest) := by
    simp [standsAt, leftOpen, rightOpen]
  have hskip : occurrencesFrom (byte :: rest) 1 rest.length (some byte) (rest ++ []) = [] :=
    Piece.occurrencesFrom_skip rfl
  rw [append_nil] at hskip
  rw [occurrences, if_neg (by simp), occurrencesFrom, if_pos hstands]
  exact congrArg (0 :: ·) hskip

end Token

namespace Numeral

variable (numeral : Numeral)

theorem text_ne_nil : numeral.text ≠ [] := by
  intro hnil
  have hdigits := filter_isDigit numeral
  rw [hnil] at hdigits
  exact numeral.digits_ne_nil hdigits.symm

/-- A numeral occurs in its own display if it is displayed as it is spelled, and then once. -/
theorem occurrences_shown :
    Token.occurrences numeral.text numeral.shown =
      if numeral.shown = numeral.text then [0] else [] := by
  split
  next heq =>
    rw [heq]
    exact Token.occurrences_self numeral.text_ne_nil
  next hdiffers =>
    obtain ⟨hbytes, hhyphen, hpoint⟩ := count_shown numeral
    exact eq_nil_iff_forall_not_mem.mpr fun offset hoffset =>
      hdiffers (Token.eq_of_mem_occurrences hoffset hbytes hhyphen hpoint)

end Numeral

end Restyle
