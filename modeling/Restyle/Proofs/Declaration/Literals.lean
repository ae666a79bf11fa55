import Restyle.Proofs.Declaration.Entries
import Restyle.Proofs.Dialect.Encoding

/-!
# Values begin outside literals

A literal stays a literal when comments are blanked: whoever reads the text without its comments
stands in the same literals as the comment scan (`Scan.literalMode_next`). The readers of visible
bytes and of colons do so, and thus the value of a declaration begins where the scan of the text is
in code: `Declaration.mode_of_value`. Blanks are trimmed off a value, so that it neither begins nor
ends in a comment, and it is read by itself as in the text: `Declaration.reads_value`. Its ends are
boundaries of characters: `Declaration.isBoundary_value`.
-/

namespace Restyle

open Byte Dialect List Scan Text

/-! ## Trimmed spans -/

namespace Text

variable {condition : Char → Bool} {char : Char}

/-- The first characters that satisfy a condition stand before one that does not. -/
theorem byteSize_takeWhile_le_of_not (left right : List Char) (h : condition char = false) :
    byteSize ((left ++ char :: right).takeWhile condition) ≤ byteSize left := by
  rw [takeWhile_append]
  split
  · have hnone : (char :: right).takeWhile condition = [] := takeWhile_cons_of_neg (by simp [h])
    exact Nat.le_of_eq (by rw [hnone, append_nil])
  · exact byteSize_takeWhile_le left condition

/-- The first characters that satisfy a condition do not end before another that does. -/
theorem byteSize_takeWhile_ne (left right : List Char) (h : condition char) :
    byteSize ((left ++ char :: right).takeWhile condition) ≠ byteSize left := by
  rw [takeWhile_append]
  split
  · rw [takeWhile_cons_of_pos h, byteSize_append]
    have hpositive := char.utf8Size_pos
    simp only [byteSize, foldr_cons]
    omega
  next hlength =>
    have hsplit := takeWhile_append_dropWhile (p := condition) (l := left)
    cases hrest : left.dropWhile condition with
    | nil => rw [hrest, append_nil] at hsplit; exact absurd (by rw [hsplit]) hlength
    | cons first others =>
      have hsize := congrArg byteSize hsplit
      have hpositive := first.utf8Size_pos
      rw [byteSize_append, hrest] at hsize
      simp only [byteSize, foldr_cons] at hsize ⊢
      omega

end Text

namespace Span

variable {span : Span} {text : Text} {byte : UInt8}

/-- A byte of a text in a span of it. -/
theorem slice_eq_append {index : Nat} (hstart : span.start ≤ index) (hstop : index < span.stop)
    (hbyte : text[index]? = some byte) :
    ∃ left right, span.slice text = left ++ byte :: right ∧ left.length = index - span.start ∧
      right.length = min span.stop text.length - index - 1 := by
  obtain ⟨hindex, rfl⟩ := List.getElem?_eq_some_iff.mp hbyte
  have hslice : (span.slice text)[index - span.start]? = some text[index] := by
    rw [slice, getElem?_take_of_lt (by omega), getElem?_drop,
      show span.start + (index - span.start) = index by omega]
    exact getElem?_eq_getElem hindex
  obtain ⟨hlt, hget⟩ := List.getElem?_eq_some_iff.mp hslice
  refine ⟨(span.slice text).take (index - span.start),
    (span.slice text).drop (index - span.start + 1), ?_, ?_, ?_⟩
  · rw [← hget, ← drop_eq_getElem_cons, take_append_drop]
  · rw [length_take]
    omega
  · rw [length_drop, slice, length_take, length_drop]
    omega

theorem trim_start (span : Span) (text : Text) : (span.trim text).start =
    span.start + byteSize ((chars (span.slice text)).takeWhile isBlank) := by
  simp only [trim]
  split <;> rfl

theorem trim_stop (h : (span.trim text).start < (span.trim text).stop) : (span.trim text).stop =
    span.stop - byteSize ((chars (span.slice text)).reverse.takeWhile isBlank) := by
  simp only [trim] at h ⊢
  split at h
  · exact absurd h (Nat.lt_irrefl _)
  next hlt => rw [if_neg hlt]

variable {index : Nat}

section Ends

variable (hbound : span.stop ≤ text.length)
  (htrim : (span.trim text).start < (span.trim text).stop) (hstart : span.start ≤ index)
  (hstop : index < span.stop) (hbyte : text[index]? = some byte) (hascii : byte < 0x80)
include hstart hstop hbyte hascii

/-- A trimmed span begins at its first byte that is no blank or before it. -/
theorem trim_start_le (hblank : isBlank (Char.ofNat byte.toNat) = false) :
    (span.trim text).start ≤ index := by
  obtain ⟨left, right, hslice, hleft, -⟩ := slice_eq_append hstart hstop hbyte
  have hsize := byteSize_takeWhile_le_of_not (chars left) (chars right) hblank
  rw [trim_start, hslice, chars_around_ascii hascii]
  rw [byteSize_chars, hleft] at hsize
  omega

theorem trim_start_ne (hblank : isBlank (Char.ofNat byte.toNat)) :
    (span.trim text).start ≠ index := by
  obtain ⟨left, right, hslice, hleft, -⟩ := slice_eq_append hstart hstop hbyte
  have hsize := byteSize_takeWhile_ne (chars left) (chars right) hblank
  rw [trim_start, hslice, chars_around_ascii hascii]
  rw [byteSize_chars, hleft] at hsize
  omega

include hbound htrim

theorem trim_stop_ne (hblank : isBlank (Char.ofNat byte.toNat)) :
    (span.trim text).stop ≠ index + 1 := by
  obtain ⟨left, right, hslice, -, hright⟩ := slice_eq_append hstart hstop hbyte
  have hsize := byteSize_takeWhile_ne (chars right).reverse (chars left).reverse hblank
  have hbounds := trim_bounds (Nat.le_of_lt (Nat.lt_of_le_of_lt hstart hstop)) hbound
  have hend := trim_stop htrim
  rw [byteSize_reverse, byteSize_chars, hright, Nat.min_eq_left hbound] at hsize
  rw [hslice, chars_around_ascii hascii, reverse_append, reverse_cons, append_assoc,
    singleton_append] at hend
  omega

end Ends

/-- At the ends of a trimmed span stands neither a space nor a line feed. -/
theorem trim_ends (span : Span) (horder : span.start ≤ span.stop) (hbound : span.stop ≤ text.length)
    (htrim : (span.trim text).start < (span.trim text).stop)
    (hindex : index = (span.trim text).start ∨ index + 1 = (span.trim text).stop) :
    ∃ byte, text[index]? = some byte ∧ byte ≠ space ∧ byte ≠ newline := by
  obtain ⟨hstart, -, hstop⟩ := trim_bounds horder hbound
  have hlt : index < text.length := by omega
  have hget := getElem?_eq_getElem hlt
  have hne : ∀ byte, byte < 0x80 → isBlank (Char.ofNat byte.toNat) → text[index] ≠ byte := by
    rintro byte hascii hblank rfl
    rcases hindex with hfirst | hlast
    · exact trim_start_ne (by omega) (by omega) hget hascii hblank hfirst.symm
    · exact trim_stop_ne hbound htrim (by omega) (by omega) hget hascii hblank hlast.symm
  exact ⟨text[index], hget, hne _ (by decide) (by decide), hne _ (by decide) (by decide)⟩

/-- No quotation mark stands between the start of a span and the start of the trimmed one. -/
theorem isQuote_before_trim (span : Span) (horder : span.start ≤ span.stop)
    (hbound : span.stop ≤ text.length) (dialect : Dialect) {byte : UInt8}
    (h : byte ∈ (text.drop span.start).take ((span.trim text).start - span.start)) :
    dialect.isQuote byte = false := by
  obtain ⟨hstart, hinside, hstop⟩ := trim_bounds horder hbound
  obtain ⟨index, hindex⟩ := mem_iff_getElem?.mp h
  rw [getElem?_take] at hindex
  split at hindex
  next hlt =>
    rw [getElem?_drop] at hindex
    cases hquote : dialect.isQuote byte with
    | false => rfl
    | true =>
      have hbyte : byte < 0x80 ∧ isBlank (Char.ofNat byte.toNat) = false := by
        simp only [isQuote, Bool.or_eq_true, Bool.and_eq_true, beq_iff_eq] at hquote
        rcases hquote with (rfl | rfl) | ⟨-, rfl⟩ <;> decide
      have hle : (span.trim text).start ≤ span.start + index :=
        trim_start_le (Nat.le_add_right _ _) (by omega) hindex hbyte.1 hbyte.2
      omega
  · cases hindex

end Span

/-! ## Literals without comments -/

namespace Scan

variable {dialect : Dialect} {scan : Scan}

/-- The literal that the scan stands in, if it is in one. -/
def literalMode (scan : Scan) : Mode :=
  match scan.mode with
  | .literal quote => .literal quote
  | .escape quote => .escape quote
  | _ => .code

/-- No literal is open around a byte of a comment. -/
theorem literalMode_of_inComment {byte : UInt8} {ahead : Option UInt8}
    (h : inComment scan (scan.next dialect byte ahead)) :
    scan.literalMode = .code ∧ (scan.next dialect byte ahead).literalMode = .code := by
  obtain ⟨mode, depth⟩ := scan
  cases mode with
  | code =>
    simp only [inComment, Bool.or_eq_true, beq_iff_eq] at h
    rcases h with h | h <;> simp [literalMode, h]
  | literal | escape => cases h
  | commentOpening | commentClosing => exact ⟨rfl, rfl⟩
  | comment | lineComment =>
    refine ⟨rfl, ?_⟩
    simp only [Scan.next]
    split <;> rfl

/-- The literals of a text are those of the text without its comments. -/
theorem literalMode_next (byte : UInt8) (ahead : Option UInt8) :
    (scan.next dialect byte ahead).literalMode =
      readNext dialect scan.literalMode (scan.shown dialect byte ahead) := by
  cases hmark : inComment scan (scan.next ..) with
  | true =>
    obtain ⟨hmode, hafter⟩ := literalMode_of_inComment hmark
    rw [hmode, hafter]
    rcases shown_of_inComment hmark with hshown | hshown <;> rw [hshown] <;> cases dialect <;> rfl
  | false =>
    rw [shown, hmark, if_neg Bool.false_ne_true]
    obtain ⟨mode, depth⟩ := scan
    cases mode with
    | code =>
      cases hquote : dialect.isQuote byte <;>
        simp [Scan.next, codeNext_of_unmarked hmark, hquote, literalMode, readNext]
    | literal quote =>
      change literalMode ⟨literalNext quote byte, depth⟩ = literalNext quote byte
      rcases literalNext_cases quote byte with hnext | hnext | hnext <;> rw [hnext] <;> rfl
    | escape quote => rfl
    | commentOpening | comment | commentClosing => cases hmark
    | lineComment =>
      rw [newline_of_unmarked rfl hmark]
      cases dialect <;> rfl

/-- A text and the text without its comments lead into the same literals. -/
theorem literalMode_stateAt (scan : Scan) (text : Text) (count : Nat) :
    (scan.stateAt dialect text count).literalMode =
      ((dialect.stripFrom scan text).take count).foldl (readNext dialect) scan.literalMode := by
  induction count generalizing scan text with
  | zero => rfl
  | succ count ih =>
    cases text with
    | nil => rfl
    | cons byte rest =>
      rw [stateAt_succ, ih, literalMode_next, stripFrom_cons, take_succ_cons, foldl_cons]
      rfl

theorem foldl_readNext_of_not_quote {text : Text}
    (h : ∀ byte ∈ text, dialect.isQuote byte = false) :
    text.foldl (readNext dialect) .code = .code := by
  induction text with
  | nil => rfl
  | cons byte rest ih =>
    obtain ⟨hbyte, hrest⟩ := forall_mem_cons.mp h
    have hnext : readNext dialect .code byte = .code := by simp [readNext, hbyte]
    rw [foldl_cons, hnext, ih hrest]

/-- Where no literal is open and a byte outside comments follows that is no line feed, the scan is
in code. -/
theorem mode_of_literalMode {byte : UInt8} {ahead : Option UInt8} (hmode : scan.literalMode = .code)
    (hmark : inComment scan (scan.next dialect byte ahead) = false) (hbyte : byte ≠ newline) :
    scan.mode = .code := by
  obtain ⟨mode, depth⟩ := scan
  cases mode with
  | code => rfl
  | literal | escape => cases hmode
  | commentOpening | comment | commentClosing => cases hmark
  | lineComment => simp [Scan.next, inComment, hbyte] at hmark

end Scan

namespace Sight

variable {dialect : Dialect}

/-- The literal that the reader of visible bytes stands in. -/
def mode : Sight → Scan.Mode
  | .literal quote => .literal quote
  | .escape quote => .escape quote
  | .clear | .interpolation _ => .code

/-- Whether the reader of visible bytes stands in an interpolation. -/
def isInterpolation : Sight → Bool
  | .interpolation _ => true
  | _ => false

theorem interpolationLength_eq_none (hdialect : dialect ≠ .scss) (text : Text) :
    dialect.interpolationLength? text = none := by
  cases text <;> simp [interpolationLength?, hdialect]

/-- The reader of visible bytes knows the literals of the text, and what it sees is in none. -/
theorem mode_next (hdialect : dialect ≠ .scss) {sight : Sight}
    (hsight : sight.isInterpolation = false) (byte : UInt8) (rest : Text) :
    (sight.next dialect byte rest).2.mode = readNext dialect sight.mode byte ∧
      (sight.next dialect byte rest).2.isInterpolation = false ∧
      ((sight.next dialect byte rest).1 →
        (sight.next dialect byte rest).2.mode = .code) := by
  cases sight with
  | clear =>
    cases hquote : dialect.isQuote byte <;>
      simp [next, mode, readNext, hquote, interpolationLength_eq_none hdialect,
        isInterpolation]
  | literal quote =>
    rcases literalNext_cases quote byte with hnext | hnext | hnext <;>
      simp [next, mode, readNext, literalNext, hnext, isInterpolation]
  | escape quote => simp [next, mode, readNext, isInterpolation]
  | interpolation => cases hsight

/-- Behind a byte that can be seen no literal is open. -/
theorem foldl_readNext_of_visible (hdialect : dialect ≠ .scss) {sight : Sight}
    (hsight : sight.isInterpolation = false) {text : Text} {index : Nat} {byte : UInt8}
    (h : (sight.visible dialect text)[index]? = some (byte, true)) :
    (text.take (index + 1)).foldl (readNext dialect) sight.mode = .code := by
  induction text generalizing sight index with
  | nil => cases h
  | cons first rest ih =>
    obtain ⟨hmode, hafter, hseen⟩ := mode_next hdialect hsight first rest
    rw [take_succ_cons, foldl_cons, ← hmode]
    rw [visible] at h
    cases index with
    | zero =>
      rw [getElem?_cons_zero, Option.some.injEq, Prod.mk.injEq] at h
      exact hseen h.2
    | succ index => exact ih hafter h

end Sight

namespace Declaration

variable {dialect : Dialect}

/-- An entry begins where the entry in progress did, or behind a byte that can be seen. It ends with
the span, or at a separator. -/
theorem ends_of_mem_entries {stop offset opened depth braces : Nat}
    {marks : List (UInt8 × Bool)} {entry : Span}
    (h : entry ∈ entries dialect stop offset opened depth braces marks) :
    (entry.start = opened ∨
      ∃ index byte, marks[index]? = some (byte, true) ∧ entry.start = offset + index + 1) ∧
    (entry.stop = stop ∨ ∃ index byte, marks[index]? = some (byte, true) ∧
      dialect.isSeparator byte ∧ entry.stop = offset + index) := by
  induction marks generalizing offset opened depth braces with
  | nil =>
    simp only [entries] at h
    split at h
    · rw [mem_singleton.mp h]; exact ⟨.inl rfl, .inl rfl⟩
    · cases h
  | cons mark rest ih =>
    obtain ⟨byte, seen⟩ := mark
    have hends : ∀ {opened depth braces},
        entry ∈ entries dialect stop (offset + 1) opened depth braces rest →
        entry.stop = stop ∨ ∃ index byte', ((byte, seen) :: rest)[index]? = some (byte', true) ∧
          dialect.isSeparator byte' ∧ entry.stop = offset + index := by
      intro opened depth braces hmem
      rcases (ih hmem).2 with hstop | ⟨index, byte', hbyte, hseparates, hstop⟩
      · exact .inl hstop
      · exact .inr ⟨index + 1, byte', hbyte, hseparates, by omega⟩
    have hgoes : ∀ {depth braces},
        entry ∈ entries dialect stop (offset + 1) opened depth braces rest →
        entry.start = opened ∨ ∃ index byte', ((byte, seen) :: rest)[index]? = some (byte', true) ∧
          entry.start = offset + index + 1 := by
      intro depth braces hmem
      rcases (ih hmem).1 with hopened | ⟨index, byte', hbyte, hstart⟩
      · exact .inl hopened
      · exact .inr ⟨index + 1, byte', hbyte, by omega⟩
    have hrestarts : seen → ∀ {depth braces},
        entry ∈ entries dialect stop (offset + 1) (offset + 1) depth braces rest →
        ∃ index byte', ((byte, seen) :: rest)[index]? = some (byte', true) ∧
          entry.start = offset + index + 1 := by
      intro hseen depth braces hmem
      rcases (ih hmem).1 with hopened | ⟨index, byte', hbyte, hstart⟩
      · exact ⟨0, byte, by rw [hseen]; rfl, hopened⟩
      · exact ⟨index + 1, byte', hbyte, by omega⟩
    rw [entries] at h
    split at h
    · exact ⟨hgoes h, hends h⟩
    next hseen =>
      have hseen : seen := by simpa using hseen
      split at h
      · exact ⟨hgoes h, hends h⟩
      · split at h
        · split at h
          next hseparates =>
            rcases mem_cons.mp h with rfl | h
            · exact ⟨.inl rfl, .inr ⟨0, byte, by rw [hseen]; rfl,
                (Bool.and_eq_true_iff.mp hseparates).2, rfl⟩⟩
            · exact ⟨.inr (hrestarts hseen h), hends h⟩
          · exact ⟨hgoes h, hends h⟩
        · split at h
          · split at h
            · exact ⟨.inr (hrestarts hseen h), hends h⟩
            · exact ⟨hgoes h, hends h⟩
          · exact ⟨hgoes h, hends h⟩

variable {text : Text} {entry : Span} {declaration : Declaration}

/-- No literal is open where a declared value begins, if none is where its entry does; and neither a
space nor a line feed stands at the ends of the value. -/
theorem readIn_ends (hstop : entry.stop ≤ text.length)
    (h : readIn? dialect text entry = some declaration) :
    ((text.take entry.start).foldl (readNext dialect) .code = .code →
      (text.take declaration.value.start).foldl (readNext dialect) .code = .code) ∧
    ∀ index, index = declaration.value.start ∨ index + 1 = declaration.value.stop →
      ∃ byte, text[index]? = some byte ∧ byte ≠ space ∧ byte ≠ newline := by
  obtain ⟨colon, hcolon, -, -, hvalue, hlt⟩ := readIn_eq_some_iff.mp h
  have hinside := colon_lt hcolon
  rw [Span.length_slice hstop] at hinside
  have horder : entry.start + colon + 1 ≤ entry.stop := by omega
  rw [hvalue] at hlt ⊢
  refine ⟨fun hentry => ?_, fun index hindex =>
    Span.trim_ends ⟨entry.start + colon + 1, entry.stop⟩ horder hstop hlt hindex⟩
  have hkey : (entry.slice text).take (colon + 1) = (text.drop entry.start).take (colon + 1) := by
    rw [Span.slice, take_take, Nat.min_eq_left (by omega)]
  have hgap := fun byte =>
    @Span.isQuote_before_trim text ⟨entry.start + colon + 1, entry.stop⟩ horder hstop dialect byte
  obtain ⟨hfloor, -, -⟩ := @Span.trim_bounds ⟨entry.start + colon + 1, entry.stop⟩ text horder hstop
  generalize ((Span.mk (entry.start + colon + 1) entry.stop).trim text).start = first
    at hgap hfloor ⊢
  simp only at hgap hfloor
  rw [← Nat.add_sub_cancel' hfloor, take_add, Nat.add_assoc, take_add, foldl_append,
    foldl_append, hentry, ← hkey, (colon_spec hcolon).2]
  exact foldl_readNext_of_not_quote hgap

variable {block : Block}

/-- Whether an entry may end before the byte: it closes a block or separates entries. -/
def endsEntry (dialect : Dialect) (byte : UInt8) : Bool :=
  byte == closeBrace || dialect.isSeparator byte

theorem lt_of_endsEntry {byte : UInt8} (h : endsEntry dialect byte) : byte < 0x80 := by
  simp only [endsEntry, isSeparator, Bool.or_eq_true, Bool.and_eq_true, beq_iff_eq] at h
  rcases h with rfl | rfl | ⟨-, rfl⟩ <;> decide

/-- A declaration of a text without comments: its entry begins behind a byte that can be seen, and a
separator or a brace stands behind it. -/
theorem exists_entry_of_mem_scan (hblock : block ∈ Block.scan dialect text)
    (h : declaration ∈ scanVisible dialect text (dialect.visible text) block.interior) :
    ∃ entry, readIn? dialect text entry = some declaration ∧ entry.stop ≤ text.length ∧
      (∃ index byte, (dialect.visible text)[index]? = some (byte, true) ∧
        entry.start = index + 1) ∧
      (∃ byte, text[entry.stop]? = some byte ∧ endsEntry dialect byte) ∧
      IsEntry (dialect.visible text) (block.opening + 1) block.closing (block.opening + 1)
        entry := by
  have hmatched := Block.matched_of_mem_scan hblock
  obtain ⟨entry, hentry, hread⟩ := mem_filterMap.mp h
  obtain ⟨hstart, hstop⟩ := ends_of_mem_entries hentry
  have hinner : ∀ {index byte}, (((dialect.visible text).drop block.interior.start).take
        (block.interior.stop - block.interior.start))[index]? = some (byte, true) →
      (dialect.visible text)[block.interior.start + index]? = some (byte, true) := by
    intro index byte hbyte
    rw [getElem?_take] at hbyte
    split at hbyte
    · rwa [getElem?_drop] at hbyte
    · cases hbyte
  obtain ⟨last, hlast, hends⟩ : ∃ last, (dialect.visible text)[entry.stop]? = some (last, true) ∧
      endsEntry dialect last := by
    rcases hstop with hclosing | ⟨index, byte, hbyte, hseparates, hstop⟩
    · exact ⟨closeBrace, hclosing ▸ hmatched.closes, rfl⟩
    · exact ⟨byte, hstop ▸ hinner hbyte, Bool.or_eq_true_iff.mpr (.inr hseparates)⟩
  have hlast : text[entry.stop]? = some last := by
    have hbytes := congrArg (·[entry.stop]?) (Sight.map_fst_visible dialect .clear text)
    rw [getElem?_map] at hbytes
    exact hbytes.symm.trans (congrArg (Option.map Prod.fst) hlast)
  refine ⟨entry, hread, Nat.le_of_lt (List.getElem?_eq_some_iff.mp hlast).1, ?_,
    ⟨last, hlast, hends⟩, (block_entries dialect hmatched).1 entry hentry⟩
  rcases hstart with hopened | ⟨index, byte, hbyte, hstart⟩
  · exact ⟨block.opening, openBrace, hmatched.opens, hopened⟩
  · exact ⟨_, byte, hinner hbyte, hstart⟩

/-- A declared value of a well-formed text begins and ends at boundaries. -/
theorem isBoundary_of_mem_scan (hformed : wellFormed text)
    (hblock : block ∈ Block.scan dialect text)
    (h : declaration ∈ scanVisible dialect text (dialect.visible text) block.interior) :
    isBoundary text declaration.value.start ∧
      isBoundary text declaration.value.stop := by
  obtain ⟨entry, hread, hstop, -, ⟨last, hlast, hends⟩, -⟩ := exists_entry_of_mem_scan hblock h
  obtain ⟨colon, hcolon, -, -, hvalue, -⟩ := readIn_eq_some_iff.mp hread
  have hinside := colon_lt hcolon
  rw [Span.length_slice hstop] at hinside
  have hbyte := Span.getElem?_of_slice ((colon_spec hcolon).1)
  rw [hvalue]
  exact Span.isBoundary_trim hformed (by simp only; omega) hstop
    (isBoundary_succ_of_ascii hformed hbyte (by decide))
    (isBoundary_of_ascii hlast (lt_of_endsEntry hends))

section Commented

variable (hblock : block ∈ Block.scan dialect (dialect.stripComments text))
  (h : declaration ∈ scanVisible dialect (dialect.stripComments text)
    (dialect.visible (dialect.stripComments text)) block.interior)
include hblock h

/-- A visible byte at an end of a declared value stands outside comments. -/
theorem marks_of_value {index : Nat}
    (hindex : index = declaration.value.start ∨ index + 1 = declaration.value.stop) :
    ∃ byte, (dialect.marks text)[index]? = some (byte, false) ∧ byte ≠ newline := by
  obtain ⟨entry, hread, hstop, -, -⟩ := exists_entry_of_mem_scan hblock h
  obtain ⟨byte, hbyte, hspace, hnewline⟩ := (readIn_ends hstop hread).2 index hindex
  exact ⟨byte, marks_of_shown hbyte hspace hnewline, hnewline⟩

/-- The value of a declaration begins outside literals and comments. -/
theorem mode_of_value (hdialect : dialect ≠ .scss) :
    (start.stateAt dialect text declaration.value.start).mode = .code := by
  obtain ⟨entry, hread, hstop, ⟨index, byte, hseen, hstart⟩, -⟩ := exists_entry_of_mem_scan hblock h
  obtain ⟨first, hfirst, hnewline⟩ := marks_of_value hblock h (.inl rfl)
  have hentry := @Sight.foldl_readNext_of_visible dialect hdialect .clear rfl _ _ _ hseen
  have hmode : (start.stateAt dialect text declaration.value.start).literalMode = .code := by
    rw [literalMode_stateAt]
    exact (readIn_ends hstop hread).1 (by rwa [hstart])
  obtain ⟨ahead, hmark⟩ := inComment_of_marks hfirst
  exact mode_of_literalMode hmode hmark hnewline

/-- A declared value is not empty, and neither its first nor its last byte is in a comment. -/
theorem ends_of_value : declaration.value.start < declaration.value.stop ∧
    declaration.value.stop ≤ text.length ∧
    ∃ first last, (dialect.marks text)[declaration.value.start]? = some (first, false) ∧
      (dialect.marks text)[declaration.value.stop - 1]? = some (last, false) := by
  obtain ⟨entry, hread, hstop, -, -⟩ := exists_entry_of_mem_scan hblock h
  obtain ⟨-, horder, hend⟩ := readIn_bounds hstop hread
  obtain ⟨first, hfirst, -⟩ := marks_of_value hblock h (.inl rfl)
  obtain ⟨last, hlast, -⟩ := @marks_of_value _ _ _ _ hblock h (declaration.value.stop - 1)
    (.inr (by omega))
  rw [stripComments, length_stripFrom] at hstop
  exact ⟨horder, Nat.le_trans hend hstop, first, last, hfirst, hlast⟩

/-- A declared value is read by itself as in the text, if the scan of the text stands before it as
before a text: it does so in plain CSS. -/
theorem reads_value (hdialect : dialect ≠ .script)
    (hscan : dialect = .scss →
      start.stateAt dialect text declaration.value.start = start) :
    dialect.Reads dialect text declaration.value := by
  obtain ⟨horder, hend, first, last, hfirst, hlast⟩ := ends_of_value hblock h
  refine reads_of_stateAt horder hend ?_ hfirst hlast
  cases dialect with
  | css => exact ⟨mode_of_value hblock h (by simp), fun hscss => by cases hscss⟩
  | scss => rw [hscan rfl]; exact ⟨rfl, fun _ => rfl⟩
  | script => exact absurd rfl hdialect

/-- A declared value begins and ends at boundaries of the text with its comments. -/
theorem isBoundary_value (hformed : wellFormed text) :
    isBoundary text declaration.value.start ∧
      isBoundary text declaration.value.stop := by
  obtain ⟨hstart, hstop⟩ := isBoundary_of_mem_scan (wellFormed_stripComments hformed) hblock h
  obtain ⟨hlt, -, first, last, hfirst, hlast⟩ := ends_of_value hblock h
  refine ⟨isBoundary_of_unmarked hfirst hstart, ?_⟩
  rw [← Nat.sub_add_cancel (show 1 ≤ declaration.value.stop by omega)] at hstop ⊢
  exact isBoundary_succ_of_unmarked hlast hstop

end Commented

end Declaration

end Restyle
