import Restyle.Proofs.Text.Encoding
import Restyle.Proofs.Text.Fill
import Restyle.Text.Position

/-!
# Boundaries of characters

A well-formed text may be cut at a boundary, and both sides are well formed
(`Text.wellFormed_take_drop`). Next to a byte below 80 there are boundaries on both sides, and
blanks are taken off a span at boundaries: `Span.isBoundary_trim`.
-/

namespace Restyle

open List Text

namespace Text

variable {text : Text} {offset : Nat} {byte : UInt8}

/-- A boundary is the end of the text, or the byte behind it begins a character. -/
theorem isBoundary_iff : isBoundary text offset ↔
    offset = text.length ∨
      ∃ byte, text[offset]? = some byte ∧ Byte.isContinuation byte = false := by
  unfold isBoundary
  split
  next hnil =>
    have hnone : text[offset]? = none := by rw [← head?_drop, hnil]; rfl
    simp [hnone]
  next byte rest hcons =>
    have hbyte : text[offset]? = some byte := by rw [← head?_drop, hcons]; rfl
    have hne : offset ≠ text.length := by
      have := (List.getElem?_eq_some_iff.mp hbyte).1
      omega
    simp [hbyte, hne]

theorem isBoundary_of_ascii (hbyte : text[offset]? = some byte) (h : byte < 0x80) :
    isBoundary text offset :=
  isBoundary_iff.mpr (.inr ⟨byte, hbyte, Byte.not_isContinuation h⟩)

theorem le_length_of_isBoundary (h : isBoundary text offset) : offset ≤ text.length := by
  rcases isBoundary_iff.mp h with rfl | ⟨byte, hbyte, -⟩
  · exact Nat.le_refl _
  · exact Nat.le_of_lt (List.getElem?_eq_some_iff.mp hbyte).1

/-- There is text between two boundaries that are in order. -/
theorem between?_eq_some_iff {start stop : Nat} {part : Text} :
    text.between? start stop = some part ↔ start ≤ stop ∧ isBoundary text start ∧
      isBoundary text stop ∧ (Span.mk start stop).slice text = part := by
  unfold between?
  split
  next h =>
    simp only [Bool.and_eq_true, decide_eq_true_eq] at h
    simp [h]
  next h =>
    simp only [Bool.and_eq_true, decide_eq_true_eq] at h
    constructor
    · intro hnone
      cases hnone
    · rintro ⟨horder, hstart, hstop, -⟩
      exact absurd ⟨⟨horder, hstart⟩, hstop⟩ h

/-- A well-formed text is cut at a boundary into well-formed ones. -/
theorem wellFormed_take_drop (h : wellFormed text) (hoffset : isBoundary text offset) :
    wellFormed (text.take offset) ∧ wellFormed (text.drop offset) := by
  rcases isBoundary_iff.mp hoffset with rfl | ⟨byte, hbyte, hbegins⟩
  · rw [take_length, drop_length]
    exact ⟨h, rfl⟩
  · obtain ⟨hlt, rfl⟩ := List.getElem?_eq_some_iff.mp hbyte
    have hdrop := drop_eq_getElem_cons hlt
    -- No character goes over the boundary, so both sides are encodings by themselves.
    have hread := h
    rw [wellFormed, beq_iff_eq] at hread
    rw [← take_append_drop offset text, hdrop, chars_append hbegins, ofChars_append] at hread
    obtain ⟨hleft, hright⟩ := append_inj hread (by rw [length_ofChars, byteSize_chars])
    rw [hdrop, wellFormed, wellFormed, hleft, hright, beq_self_eq_true, beq_self_eq_true]
    exact ⟨rfl, rfl⟩

/-- Before a well-formed rest there is a boundary. -/
theorem isBoundary_of_wellFormed (hoffset : offset ≤ text.length)
    (h : wellFormed (text.drop offset)) : isBoundary text offset := by
  obtain ⟨chars', hchars⟩ := wellFormed_iff.mp h
  cases chars' with
  | nil =>
    have hlength := congrArg length hchars
    rw [length_drop] at hlength
    exact isBoundary_iff.mpr (.inl (Nat.le_antisymm hoffset (Nat.le_of_sub_eq_zero hlength)))
  | cons char later =>
    obtain ⟨byte, bytes, hencode, hbyte⟩ := encode_head char
    refine isBoundary_iff.mpr (.inr ⟨byte, ?_, hbyte⟩)
    rw [← head?_drop, hchars, ofChars, flatMap_cons, hencode]
    rfl

theorem wellFormed_of_ascii (h : byte < 0x80) : wellFormed [byte] := by
  have hall : ∀ number < 0x80, wellFormed [UInt8.ofNat number] := by decide
  have hbyte := hall byte.toNat (by simpa [UInt8.lt_iff_toNat_lt] using h)
  rwa [UInt8.ofNat_toNat] at hbyte

theorem wellFormed_of_all_ascii (h : ∀ byte ∈ text, byte < 0x80) : wellFormed text := by
  induction text with
  | nil => rfl
  | cons byte rest ih =>
    obtain ⟨hbyte, hrest⟩ := forall_mem_cons.mp h
    exact wellFormed_append (wellFormed_of_ascii hbyte) (ih hrest)

theorem isBoundary_succ_of_ascii (h : wellFormed text) (hbyte : text[offset]? = some byte)
    (hascii : byte < 0x80) : isBoundary text (offset + 1) := by
  obtain ⟨hlt, rfl⟩ := List.getElem?_eq_some_iff.mp hbyte
  have hdrop := (wellFormed_take_drop h (isBoundary_of_ascii hbyte hascii)).2
  rw [drop_eq_getElem_cons hlt] at hdrop
  exact isBoundary_of_wellFormed hlt (wellFormed_of_append (wellFormed_of_ascii hascii) hdrop)

end Text

namespace Span

variable {span : Span} {text : Text}

/-- A span of a well-formed text between boundaries is well formed. -/
theorem wellFormed_slice (h : wellFormed text)
    (hstart : isBoundary text span.start)
    (hstop : isBoundary text span.stop) : wellFormed (span.slice text) := by
  have hrest := (wellFormed_take_drop h hstart).2
  rcases Nat.lt_or_ge span.start span.stop with hlt | hge
  · refine (wellFormed_take_drop hrest (isBoundary_iff.mpr ?_)).1
    have hplace : span.start + (span.stop - span.start) = span.stop := by omega
    rw [length_drop, getElem?_drop, hplace]
    exact (isBoundary_iff.mp hstop).imp (fun hend => by rw [hend]) id
  · rw [slice, Nat.sub_eq_zero_of_le hge]
    rfl

section Cut

variable (h : wellFormed text) (horder : span.start ≤ span.stop)
  (hbound : span.stop ≤ text.length) (hstart : isBoundary text span.start)
  (hstop : isBoundary text span.stop)
include h horder hbound hstart hstop

/-- The characters of a span between boundaries may be cut anywhere. -/
theorem isBoundary_of_chars {left right : List Char}
    (hchars : chars (span.slice text) = left ++ right) :
    span.start + byteSize left + byteSize right = span.stop ∧
      isBoundary text (span.start + byteSize left) := by
  have hslice : span.slice text = ofChars left ++ ofChars right := by
    have hformed := wellFormed_slice h hstart hstop
    rw [wellFormed, beq_iff_eq, hchars, ofChars_append] at hformed
    exact hformed.symm
  have hlength := length_slice hbound
  rw [hslice, length_append, length_ofChars, length_ofChars] at hlength
  refine ⟨by omega, isBoundary_of_wellFormed (by omega) ?_⟩
  rw [← drop_drop, ← slice_append_drop horder text]
  rw [hslice, append_assoc, ← length_ofChars, drop_left]
  exact wellFormed_append (wellFormed_iff.mpr ⟨right, rfl⟩) (wellFormed_take_drop h hstop).2

theorem isBoundary_trim :
    isBoundary text (span.trim text).start ∧
      isBoundary text (span.trim text).stop := by
  have hfirst := (isBoundary_of_chars h horder hbound hstart hstop
    (takeWhile_append_dropWhile (p := isBlank)).symm).2
  have hchars : chars (span.slice text) =
      ((chars (span.slice text)).reverse.dropWhile isBlank).reverse ++
        ((chars (span.slice text)).reverse.takeWhile isBlank).reverse := by
    rw [← reverse_append, takeWhile_append_dropWhile, reverse_reverse]
  obtain ⟨hsize, hlast⟩ := isBoundary_of_chars h horder hbound hstart hstop hchars
  rw [byteSize_reverse ((chars (span.slice text)).reverse.takeWhile isBlank)] at hsize
  simp only [trim]
  split
  · exact ⟨hfirst, hfirst⟩
  · refine ⟨hfirst, ?_⟩
    rwa [show span.stop - byteSize ((chars (span.slice text)).reverse.takeWhile isBlank) =
      span.start + byteSize ((chars (span.slice text)).reverse.dropWhile isBlank).reverse by omega]

end Cut

end Span

end Restyle
