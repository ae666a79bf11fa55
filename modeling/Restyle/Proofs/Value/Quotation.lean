import Restyle.Proofs.Value.Literal

/-!
# Literals and parts

The division of a value and the comment scan read quotation marks each in its own way. The scan
knows escapes, ends a literal with its line and sees no literal in a comment; the division does none
of this. The two agree on what is quoted as long as no byte of that kind misleads the division
(`Value.quotes_agree_iff`). A literal then lies in one part, and in general it does if and only if
no space in it is read outside quotation marks and parentheses: `Value.literal_in_part_iff`.
-/

namespace Restyle

open Byte List Scan

namespace Scan

variable {dialect : Dialect} {scan : Scan}

/-- The quotation mark of the open literal, also behind a backslash in it. -/
def literalQuote (scan : Scan) : Option UInt8 :=
  match scan.mode with
  | .literal quote | .escape quote => some quote
  | _ => none

/-- Whether a byte misleads a reader of quotation marks: it ends the literal with its line, it is an
escaped quotation mark, or it is a quotation mark in a comment. -/
def misleads (scan : Scan) (byte : UInt8) : Bool :=
  match scan.mode with
  | .code => false
  | .literal _ => byte == newline
  | .escape quote => byte == quote
  | .commentOpening | .comment | .commentClosing | .lineComment =>
    byte == doubleQuote || byte == apostrophe

theorem stateAt_add (dialect : Dialect) (scan : Scan) (text : Text) (first second : Nat) :
    scan.stateAt dialect text (first + second) =
      (scan.stateAt dialect text first).stateAt dialect (text.drop first) second := by
  induction first generalizing scan text with
  | zero =>
    rw [Nat.zero_add]
    rfl
  | succ first ih =>
    cases text with
    | nil =>
      simp only [stateAt, take_nil, drop_nil]
      rfl
    | cons byte rest =>
      rw [Nat.add_right_comm, stateAt_succ, stateAt_succ, ih]
      rfl

theorem stateAt_next {text : Text} {offset : Nat} {byte : UInt8} (h : text[offset]? = some byte) :
    scan.stateAt dialect text (offset + 1) =
      (scan.stateAt dialect text offset).next dialect byte (text.drop (offset + 1)).head? := by
  obtain ⟨hlt, rfl⟩ := List.getElem?_eq_some_iff.mp h
  rw [stateAt_add, drop_eq_getElem_cons hlt]
  rfl

/-- A byte of code opens a literal or leaves none open. -/
theorem literalQuote_codeNext (dialect : Dialect) (depth depth' : Nat) (byte : UInt8)
    (ahead : Option UInt8) :
    (mk (codeNext dialect depth byte ahead) depth').literalQuote =
      if dialect.isQuote byte then some byte else none := by
  unfold codeNext
  split
  · rfl
  · split
    · rfl
    · split <;> rfl

/-- A literal between quotation marks is open until its quotation mark closes it or its line
ends. -/
theorem literalQuote_literalNext {quote : UInt8}
    (h : (quote == backslash || quote == backtick) = false) (byte : UInt8) (depth : Nat) :
    (mk (literalNext quote byte) depth).literalQuote =
      if byte == quote || byte == newline then none else some quote := by
  obtain ⟨hbackslash, hbacktick⟩ := Bool.or_eq_false_iff.mp h
  have hends : (byte == quote || (byte == newline && quote != backtick)) =
      (byte == quote || byte == newline) := by
    rw [bne, hbacktick, Bool.not_false, Bool.and_true]
  unfold literalNext
  rw [hends]
  split
  next hescape =>
    obtain rfl := beq_iff_eq.mp hescape
    rw [BEq.comm, hbackslash]
    rfl
  · split <;> rfl

theorem literalQuote_next_of_not_isOutside (h : scan.isOutside = false) (byte : UInt8)
    (ahead : Option UInt8) : (scan.next dialect byte ahead).literalQuote = none := by
  obtain ⟨mode, depth⟩ := scan
  cases mode with
  | code | literal | escape => cases h
  | commentOpening | commentClosing => rfl
  | comment | lineComment =>
    simp only [Scan.next]
    split <;> rfl

/-- Where both readers have the same quotation mark open, they do so behind the next byte if and
only if it does not mislead. -/
theorem literalQuote_next_iff (hdialect : dialect ≠ .script) (hsound : scan.Sound dialect)
    {enclosure : Enclosure} (hquote : enclosure.quote = scan.literalQuote) (byte : UInt8)
    (ahead : Option UInt8) :
    (enclosure.next byte).quote = (scan.next dialect byte ahead).literalQuote ↔
      scan.misleads byte = false := by
  obtain ⟨inner, quote⟩ := enclosure
  obtain ⟨mode, depth⟩ := scan
  cases mode with
  | code =>
    obtain rfl : quote = none := hquote
    refine iff_of_true ?_ rfl
    show _ = (mk (codeNext dialect depth byte ahead) _).literalQuote
    rw [literalQuote_codeNext, Dialect.isQuote_eq hdialect]
    rfl
  | literal mark =>
    obtain rfl : quote = some mark := hquote
    have hmark : mark = doubleQuote ∨ mark = apostrophe := by
      simpa [Dialect.isQuote_eq hdialect] using hsound mark (.inl rfl)
    show (if byte == mark then none else some mark) =
      (mk (literalNext mark byte) depth).literalQuote ↔ (byte == newline) = false
    rw [literalQuote_literalNext (by rcases hmark with rfl | rfl <;> decide)]
    by_cases hnewline : byte = newline
    · subst hnewline
      rcases hmark with rfl | rfl <;> decide
    · simp [hnewline]
  | escape mark =>
    obtain rfl : quote = some mark := hquote
    show (if byte == mark then none else some mark) = some mark ↔ (byte == mark) = false
    cases byte == mark <;> simp
  | commentOpening | comment | commentClosing | lineComment =>
    obtain rfl : quote = none := hquote
    rw [literalQuote_next_of_not_isOutside rfl]
    show (if byte == doubleQuote || byte == apostrophe then some byte else none) = none ↔
      (byte == doubleQuote || byte == apostrophe) = false
    cases byte == doubleQuote || byte == apostrophe <;> simp

end Scan

/-! ## The literals of a text -/

/-- The span is a literal of the text: the scan of the text comes to its quotation mark in code, and
from there the literal is read to the end of the span. -/
structure IsLiteral (dialect : Dialect) (text : Text) (span : Span) : Prop where
  code : (start.stateAt dialect text span.start).mode = .code
  opens : ∃ quote, text[span.start]? = some quote ∧ dialect.isQuote quote
  ends : span.stop = (Literal.read text span.start).1

namespace Literal

variable {dialect : Dialect} {scan : Scan} {quote : UInt8}

theorem readFrom_le (quote : UInt8) (mode : Scan.Mode) (text : Text) :
    (readFrom quote mode text).1 ≤ text.length := by
  induction text generalizing mode with
  | nil => exact Nat.le_refl 0
  | cons byte rest ih =>
    rw [readFrom]
    split
    · split <;> simp
    · exact Nat.succ_le_succ (ih _)

/-- The scan has the literal open as far as it is read. -/
theorem isOpen_stateAt {text : Text} (hopen : IsOpen quote scan.mode) {count : Nat}
    (hcount : count < (readFrom quote scan.mode text).1) :
    IsOpen quote (scan.stateAt dialect text count).mode := by
  induction text generalizing scan count with
  | nil => exact absurd hcount (Nat.not_lt_zero count)
  | cons byte rest ih =>
    have hnext : (scan.next dialect byte rest.head?).mode = next quote scan.mode byte := by
      obtain ⟨mode, depth⟩ := scan
      rcases hopen with rfl | rfl <;> rfl
    cases count with
    | zero => exact hopen
    | succ count =>
      rw [stateAt_succ]
      rcases next_cases hopen byte with hopen' | ⟨-, hcode⟩
      · rw [readFrom_cons hopen', ← hnext] at hcount
        exact ih (hnext ▸ hopen') (Nat.lt_of_succ_lt_succ hcount)
      · -- The literal ends with this byte, so no byte of it follows.
        rw [readFrom, hcode] at hcount
        simp only at hcount
        split at hcount <;> simp at hcount

end Literal

namespace IsLiteral

variable {dialect : Dialect} {text : Text} {span : Span}

/-- A literal ends where it is read to behind its quotation mark. -/
theorem stop_eq (h : IsLiteral dialect text span) {quote : UInt8}
    (hquote : text[span.start]? = some quote) :
    span.stop = span.start + 1 +
      (Literal.readFrom quote (.literal quote) (text.drop (span.start + 1))).1 := by
  obtain ⟨hlt, rfl⟩ := List.getElem?_eq_some_iff.mp hquote
  rw [h.ends, Literal.read, drop_eq_getElem_cons hlt]

theorem order (h : IsLiteral dialect text span) :
    span.start < span.stop ∧ span.stop ≤ text.length := by
  obtain ⟨quote, hquote, -⟩ := h.opens
  have hlt := (List.getElem?_eq_some_iff.mp hquote).1
  have hle := Literal.readFrom_le quote (.literal quote) (text.drop (span.start + 1))
  rw [length_drop] at hle
  rw [h.stop_eq hquote]
  omega

/-- The scan has a quotation mark open inside a literal. -/
theorem isSome_literalQuote (h : IsLiteral dialect text span) {offset : Nat}
    (hstart : span.start < offset) (hstop : offset < span.stop) :
    (start.stateAt dialect text offset).literalQuote.isSome := by
  obtain ⟨quote, hquote, hmark⟩ := h.opens
  have hopened : (start.stateAt dialect text (span.start + 1)).mode = .literal quote := by
    rw [stateAt_next hquote, Scan.next, h.code]
    simp only [codeNext, if_pos hmark]
  obtain ⟨count, rfl⟩ := Nat.exists_eq_add_of_le hstart
  have hcount : count < (Literal.readFrom quote (.literal quote)
      (text.drop (span.start + 1))).1 := by
    rw [h.stop_eq hquote] at hstop
    omega
  rw [← hopened] at hcount
  rw [stateAt_add, literalQuote]
  rcases @Literal.isOpen_stateAt dialect _ quote _ (.inl hopened) count hcount with hopen | hopen
    <;> rw [hopen] <;> rfl

end IsLiteral

/-! ## The two readers side by side -/

namespace Value

open Enclosure (outside)

/-- Whether the byte at an offset misleads the division of a value, judged by the comment scan. -/
def misleadsAt (dialect : Dialect) (value : Text) (offset : Nat) : Bool :=
  value[offset]?.any (start.stateAt dialect value offset).misleads

/-- The division of a value and the comment scan have the same quotation mark open at an offset. -/
def QuotesAgree (dialect : Dialect) (value : Text) (offset : Nat) : Prop :=
  (outside.after (value.take offset)).quote = (start.stateAt dialect value offset).literalQuote

variable {value : Text} {dialect : Dialect}

/-- Where both readers agree they do so one byte on if and only if that byte does not mislead. -/
theorem QuotesAgree.succ_iff (hdialect : dialect ≠ .script) {offset : Nat}
    (h : QuotesAgree dialect value offset) (hlt : offset < value.length) :
    QuotesAgree dialect value (offset + 1) ↔ misleadsAt dialect value offset = false := by
  have hbyte : value[offset]? = some value[offset] := getElem?_eq_getElem hlt
  have hafter : outside.after (value.take (offset + 1)) =
      (outside.after (value.take offset)).next value[offset] := by
    rw [take_succ_eq_append_getElem hlt, Enclosure.after_append]
    rfl
  rw [QuotesAgree, hafter, stateAt_next hbyte, misleadsAt, hbyte]
  exact literalQuote_next_iff hdialect ((start_sound dialect).run _ _) h _ _

/-- The two readers agree up to an offset if and only if no byte before it misleads. -/
theorem quotes_agree_iff (hdialect : dialect ≠ .script) {count : Nat}
    (hcount : count ≤ value.length) :
    (∀ offset ≤ count, QuotesAgree dialect value offset) ↔
      ∀ offset < count, misleadsAt dialect value offset = false := by
  induction count with
  | zero =>
    refine iff_of_true (fun offset hoffset => ?_) (by simp)
    obtain rfl := Nat.le_zero.mp hoffset
    rfl
  | succ count ih =>
    have ih := ih (Nat.le_of_succ_le hcount)
    constructor
    · intro hagree offset hoffset
      exact ((hagree offset (Nat.le_of_lt hoffset)).succ_iff hdialect (by omega)).mp
        (hagree (offset + 1) hoffset)
    · intro hmisleads offset hoffset
      have hbefore := ih.mpr fun offset hoffset => hmisleads offset (Nat.lt_succ_of_lt hoffset)
      rcases Nat.le_succ_iff.mp hoffset with hoffset | rfl
      · exact hbefore offset hoffset
      · exact ((hbefore count (Nat.le_refl count)).succ_iff hdialect hcount).mpr
          (hmisleads count (Nat.lt_succ_self count))

/-- A space between quotation marks does not divide a value. -/
theorem dividesAt_of_quote {offset : Nat}
    (h : (outside.after (value.take offset)).quote.isSome) :
    dividesAt value offset = false := by
  rw [Bool.eq_false_iff, ne_eq, dividesAt_iff]
  rintro ⟨byte, -, hdivides⟩
  rw [Enclosure.divides, Bool.and_eq_true, beq_iff_eq] at hdivides
  rw [hdivides.1] at h
  cases h

/-- A literal lies in one part of the value if and only if no space in it is read outside quotation
marks and parentheses. It does so if no byte up to its end misleads the division, which is to say
that the division and the comment scan have the same quotation marks open up to there. -/
theorem literal_in_part_iff {value : Text} {literal : Span} (h : IsLiteral .css value literal) :
    ((∃ part ∈ parts value, part.start ≤ literal.start ∧ literal.stop ≤ part.stop) ↔
      ∀ offset, literal.start < offset → offset < literal.stop → dividesAt value offset = false) ∧
    ((∀ offset ≤ literal.stop, QuotesAgree .css value offset) ↔
      ∀ offset < literal.stop, misleadsAt .css value offset = false) ∧
    ((∀ offset < literal.stop, misleadsAt .css value offset = false) →
      ∃ part ∈ parts value, part.start ≤ literal.start ∧ literal.stop ≤ part.stop) := by
  obtain ⟨horder, hbound⟩ := h.order
  obtain ⟨quote, hquote, hmark⟩ := h.opens
  have hspace : isSpace quote = false ∧ Enclosure.isFiller quote = false := by
    rw [Dialect.isQuote_eq (by decide), Bool.or_eq_true, beq_iff_eq, beq_iff_eq] at hmark
    rcases hmark with rfl | rfl <;> decide
  have hagree := quotes_agree_iff (show Dialect.css ≠ .script by decide) hbound
  -- The quotation mark that opens the literal is no space, so it divides nothing.
  have hfirst : dividesAt value literal.start = false := by
    rw [dividesAt, hquote, Option.any_some, Enclosure.divides, hspace.1, Bool.and_false]
  have hpart : (∃ part ∈ parts value, part.start ≤ literal.start ∧ literal.stop ≤ part.stop) ↔
      ∀ offset, literal.start < offset → offset < literal.stop →
        dividesAt value offset = false := by
    rw [exists_part_iff hquote hspace.2 horder hbound]
    constructor
    · exact fun hdivides offset hstart => hdivides offset (Nat.le_of_lt hstart)
    · intro hdivides offset hstart hstop
      rcases Nat.eq_or_lt_of_le hstart with rfl | hstart
      · exact hfirst
      · exact hdivides offset hstart hstop
  refine ⟨hpart, hagree, fun hmisleads => hpart.mpr fun offset hstart hstop => ?_⟩
  apply dividesAt_of_quote
  rw [hagree.mpr hmisleads offset (Nat.le_of_lt hstop)]
  exact h.isSome_literalQuote hstart hstop

/-- Two literals with spaces, the first with an escape and the second with the quotation mark of the
first in it. -/
def quotedPair : Text :=
  utf8 "'a\\\\ b' \"it's ok\""

/-- The second literal of the quoted pair lies in one part. -/
theorem literal_in_part_quotedPair :
    IsLiteral .css quotedPair ⟨8, 17⟩ ∧
      (∀ offset < 17, misleadsAt .css quotedPair offset = false) ∧
      ∃ part ∈ parts quotedPair, part.start ≤ 8 ∧ 17 ≤ part.stop := by
  have hliteral : IsLiteral .css quotedPair ⟨8, 17⟩ :=
    ⟨by decide, ⟨doubleQuote, by decide, by decide⟩, by decide⟩
  have hmisleads : ∀ offset < 17, misleadsAt .css quotedPair offset = false := by decide
  exact ⟨hliteral, hmisleads, (literal_in_part_iff hliteral).2.2 hmisleads⟩

/-- A literal with an escaped quotation mark and a space behind it. -/
def escapedQuote : Text :=
  utf8 "\"a\\\" b\""

/-- The literal is the whole value, and the value is divided at the space in it. -/
theorem literal_across_parts_escapedQuote :
    IsLiteral .css escapedQuote ⟨0, 7⟩ ∧ parts escapedQuote = [⟨0, 4⟩, ⟨5, 7⟩] ∧
      ¬ ∃ part ∈ parts escapedQuote, part.start ≤ 0 ∧ 7 ≤ part.stop :=
  ⟨⟨by decide, ⟨doubleQuote, by decide, by decide⟩, by decide⟩, by decide, by decide⟩

end Value

end Restyle
