import Restyle.Text.Span

/-!
# Characters and their bytes

Reading a list of bytes as characters loses none of them: `Text.byteSize_chars` says that the
characters take as many bytes as the text has, whether or not it is well formed. Hence
`Span.trim_bounds`: a trimmed span stays inside the span. `Text.chars_append` reads two parts of a
text one after the other when no character can reach from the first into the second.
-/

namespace Restyle

open Byte List

/-- The bytes that continue an encoding are those from 80 to BF. -/
theorem Byte.isContinuation_iff (byte : UInt8) :
    isContinuation byte ↔ 0x80 ≤ byte.toNat ∧ byte.toNat < 0xC0 := by
  have h : ∀ n < 256, n &&& 0xC0 = 0x80 ↔ 0x80 ≤ n ∧ n < 0xC0 := by decide +kernel
  rw [← h byte.toNat (UInt8.toNat_lt byte), isContinuation, beq_iff_eq, ← UInt8.toNat_inj]
  simp

theorem Byte.not_isContinuation {byte : UInt8} (h : byte < 0x80) :
    isContinuation byte = false := by
  rw [Bool.eq_false_iff, ne_eq, isContinuation_iff]
  simp only [UInt8.lt_iff_toNat_lt, UInt8.reduceToNat] at h
  omega

namespace Text

/-- A valid code is that of its character. -/
theorem toNat_ofNat {code : Nat} (h : code.isValidChar) : (Char.ofNat code).val.toNat = code := by
  rw [Char.ofNat, dif_pos h]
  rfl

variable {char : Char}

/-- A character that is read from two bytes takes two. -/
theorem utf8Size_of_pair {first second : UInt8}
    (h : pair? first second = some char) : char.utf8Size = 2 := by
  simp only [pair?, Bool.and_eq_true, decide_eq_true_eq, isContinuation_iff,
    UInt8.le_iff_toNat_le, UInt8.reduceToNat, Option.ite_none_right_eq_some, Option.some.injEq] at h
  obtain ⟨⟨⟨hlow, hhigh⟩, hsecond⟩, rfl⟩ := h
  have hcode : (Char.ofNat ((first.toNat - 0xC0) * 64 + (second.toNat - 0x80))).val.toNat =
      (first.toNat - 0xC0) * 64 + (second.toNat - 0x80) :=
    toNat_ofNat (Or.inl (by omega))
  rw [Char.utf8Size_eq_two_iff, UInt32.lt_iff_toNat_lt, UInt32.le_iff_toNat_le]
  simp only [UInt32.reduceToNat]
  omega

/-- A character that is read from three bytes takes three. -/
theorem utf8Size_of_triple {first second third : UInt8}
    (h : triple? first second third = some char) : char.utf8Size = 3 := by
  simp only [triple?, Bool.and_eq_true, Bool.or_eq_true, decide_eq_true_eq, isContinuation_iff,
    UInt8.le_iff_toNat_le, UInt8.reduceToNat, Option.ite_none_right_eq_some,
    Option.ite_none_left_eq_some, Option.some.injEq] at h
  obtain ⟨⟨⟨⟨hlow, hhigh⟩, hsecond⟩, hthird⟩, hrange, rfl⟩ := h
  have hcode := @toNat_ofNat ((first.toNat - 0xE0) * 4096 + (second.toNat - 0x80) * 64 +
    (third.toNat - 0x80)) (by unfold Nat.isValidChar; omega)
  rw [Char.utf8Size_eq_three_iff, UInt32.lt_iff_toNat_lt, UInt32.le_iff_toNat_le]
  simp only [UInt32.reduceToNat]
  omega

/-- A character that is read from four bytes takes four. -/
theorem utf8Size_of_quadruple {first second third fourth : UInt8}
    (h : quadruple? first second third fourth = some char) : char.utf8Size = 4 := by
  simp only [quadruple?, Bool.and_eq_true, Bool.or_eq_true, decide_eq_true_eq,
    isContinuation_iff, UInt8.le_iff_toNat_le, UInt8.reduceToNat,
    Option.ite_none_right_eq_some, Option.ite_none_left_eq_some, Option.some.injEq] at h
  obtain ⟨⟨⟨⟨⟨hlow, hhigh⟩, hsecond⟩, hthird⟩, hfourth⟩, hrange, rfl⟩ := h
  have hcode := @toNat_ofNat ((first.toNat - 0xF0) * 262144 + (second.toNat - 0x80) * 4096 +
    (third.toNat - 0x80) * 64 + (fourth.toNat - 0x80)) (by unfold Nat.isValidChar; omega)
  rw [Char.utf8Size_eq_four_iff, UInt32.lt_iff_toNat_lt]
  simp only [UInt32.reduceToNat]
  omega

variable {byte : UInt8}

/-- A byte below 80 is a character of one byte. -/
theorem utf8Size_of_ascii (h : byte < 0x80) :
    (Char.ofNat byte.toNat).utf8Size = 1 := by
  have hlt : byte.toNat < 0x80 := by simpa [UInt8.lt_iff_toNat_lt] using h
  rw [Char.utf8Size_eq_one_iff, UInt32.le_iff_toNat_le, toNat_ofNat (Or.inl (by omega))]
  simp only [UInt32.reduceToNat]
  omega

theorem byteSize_append (left right : List Char) :
    byteSize (left ++ right) = byteSize left + byteSize right := by
  induction left with
  | nil => simp [byteSize]
  | cons char left ih =>
    simp only [byteSize, cons_append, foldr_cons] at ih ⊢
    omega

/-- Characters take as many bytes in any order. -/
theorem byteSize_reverse (chars : List Char) : byteSize chars.reverse = byteSize chars := by
  induction chars with
  | nil => rfl
  | cons char chars ih =>
    rw [reverse_cons, byteSize_append, ih]
    simp only [byteSize, foldr_cons, foldr_nil]
    omega

/-- The first characters of a list take no more bytes than all of them. -/
theorem byteSize_takeWhile_le (chars : List Char) (condition : Char → Bool) :
    byteSize (chars.takeWhile condition) ≤ byteSize chars := by
  have hsplit := byteSize_append (chars.takeWhile condition) (chars.dropWhile condition)
  rw [takeWhile_append_dropWhile] at hsplit
  omega

/-- Reading a text as characters loses no byte, whether or not the text is well formed. -/
theorem byteSize_chars (text : Text) : byteSize (chars text) = text.length := by
  fun_induction chars text with
  | case1 => rfl
  | case2 first rest hascii ih =>
    have := utf8Size_of_ascii hascii
    simp_all only [byteSize, foldr_cons, length_cons]
    omega
  | case3 => rfl
  | case4 first hhigh second rest char hpair ih =>
    have := utf8Size_of_pair hpair
    simp_all only [byteSize, foldr_cons, length_cons]
    omega
  | case6 first hhigh second hpair third rest char htriple ih =>
    have := utf8Size_of_triple htriple
    simp_all only [byteSize, foldr_cons, length_cons]
    omega
  | case8 first hhigh second hpair third htriple fourth rest char hquadruple ih =>
    have := utf8Size_of_quadruple hquadruple
    simp_all only [byteSize, foldr_cons, length_cons]
    omega
  | case5 | case7 | case9 =>
    have : substitute.utf8Size = 1 := rfl
    simp_all only [byteSize, foldr_cons, length_cons]
    omega

/-- A byte below 80 is read as a character by itself. -/
theorem chars_ascii (h : byte < 0x80) (rest : Text) :
    chars (byte :: rest) = Char.ofNat byte.toNat :: chars rest := by
  rw [chars.eq_def]
  simp [h]

/-- Where a byte continues no encoding, a text is read in two parts. -/
theorem chars_append (hbyte : isContinuation byte = false) (left right : Text) :
    chars (left ++ byte :: right) = chars left ++ chars (byte :: right) := by
  have hpair : ∀ first, pair? first byte = none := by simp [pair?, hbyte]
  have htriple : ∀ first second, triple? first second byte = none ∧
      triple? first byte second = none := by simp [triple?, hbyte]
  have hquadruple : ∀ first second third, quadruple? first second third byte = none ∧
      quadruple? first second byte third = none ∧ quadruple? first byte second third = none := by
    simp [quadruple?, hbyte]
  fun_induction chars left with
  | case1 => rfl
  | case2 first rest hascii ih =>
    rw [cons_append, chars_ascii hascii, ih, cons_append]
  | case3 first hhigh =>
    rw [chars.eq_def]
    cases right with
    | nil => simp [hhigh, hpair]
    | cons second right => cases right <;> simp [hhigh, hpair, htriple, hquadruple]
  | case4 first hhigh second rest char hchar ih =>
    rw [chars.eq_def]
    simp [hhigh, hchar, ih]
  | case5 first hhigh second hchar ih =>
    rw [chars.eq_def]
    rw [cons_append, nil_append] at ih
    cases right <;> simp [hhigh, hchar, htriple, hquadruple, ih]
  | case6 first hhigh second hchar third rest char hchar' ih =>
    rw [chars.eq_def]
    simp [hhigh, hchar, hchar', ih]
  | case7 first hhigh second hchar third hchar' ih =>
    rw [chars.eq_def]
    rw [cons_append, cons_append, nil_append] at ih
    simp [hhigh, hchar, hchar', hquadruple, ih]
  | case8 first hhigh second hchar third hchar' fourth rest char hchar'' ih =>
    rw [chars.eq_def]
    simp [hhigh, hchar, hchar', hchar'', ih]
  | case9 first hhigh second hchar third hchar' fourth rest hchar'' ih =>
    rw [chars.eq_def]
    rw [cons_append, cons_append, cons_append] at ih
    simp [hhigh, hchar, hchar', hchar'', ih]

/-- A text around a byte below 80 is read in three parts. -/
theorem chars_around_ascii (h : byte < 0x80) (left right : Text) :
    chars (left ++ byte :: right) = chars left ++ Char.ofNat byte.toNat :: chars right := by
  rw [chars_append (not_isContinuation h), chars_ascii h]

/-- A blank byte makes a blank character. -/
theorem hasBlank_of_mem {text : Text} (hascii : byte < 0x80)
    (hblank : isBlank (Char.ofNat byte.toNat)) (h : byte ∈ text) : hasBlank text := by
  obtain ⟨left, right, rfl⟩ := append_of_mem h
  rw [hasBlank, chars_around_ascii hascii]
  simp [hblank]

/-- Characters without blanks have none to trim. -/
theorem trimChars_eq_self {chars : List Char} (h : ∀ char ∈ chars, isBlank char = false) :
    trimChars chars = chars := by
  have hdrop : ∀ chars : List Char, (∀ char ∈ chars, isBlank char = false) →
      chars.dropWhile isBlank = chars := by
    intro chars h
    cases chars with
    | nil => rfl
    | cons first rest => simp [h first mem_cons_self]
  unfold trimChars
  rw [hdrop chars h, hdrop chars.reverse (by simpa using h), reverse_reverse]

end Text

namespace Span

variable {span : Span} {text : Text}

/-- A span inside a text cuts out as many bytes as it is long. -/
theorem length_slice (h : span.stop ≤ text.length) :
    (span.slice text).length = span.stop - span.start := by
  rw [slice, length_take, length_drop]
  omega

theorem slice_empty (offset : Nat) (text : Text) : (mk offset offset).slice text = [] := by
  rw [slice, Nat.sub_self, take_zero]

/-- A byte of a slice is that byte of the text. -/
theorem getElem?_of_slice {index : Nat} {byte : UInt8}
    (h : (span.slice text)[index]? = some byte) : text[span.start + index]? = some byte := by
  rw [slice, getElem?_take] at h
  split at h
  · rwa [getElem?_drop] at h
  · cases h

/-- A trimmed span lies inside the span. -/
theorem trim_bounds (horder : span.start ≤ span.stop) (hstop : span.stop ≤ text.length) :
    span.start ≤ (span.trim text).start ∧ (span.trim text).start ≤ (span.trim text).stop ∧
      (span.trim text).stop ≤ span.stop := by
  have hleading := Text.byteSize_takeWhile_le (Text.chars (span.slice text)) isBlank
  rw [Text.byteSize_chars, length_slice hstop] at hleading
  simp only [trim]
  split
  · exact ⟨Nat.le_add_right _ _, Nat.le_refl _, by simp only; omega⟩
  next hlt => exact ⟨Nat.le_add_right _ _, by simp only at *; omega, Nat.sub_le _ _⟩

end Span

end Restyle
