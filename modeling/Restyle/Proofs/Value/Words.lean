import Restyle.Proofs.Dialect.Visible
import Restyle.Proofs.Text.Swap
import Restyle.Proofs.Token.CustomName
import Restyle.Proofs.Value.Enclosure

/-!
# Values around a word

A word in a value is one run of characters, blank if it stands in a comment and not blank if it does
not. So the ends of the value without its blanks (`Span.trim_word`) and its parts
(`Value.parts_word`) are the same whichever word it is, up to its length, and the reading of the
parts is stable: `Value.codeParts_stable`.
-/

namespace Restyle

open Byte Dialect Enclosure List Span Text Token

open Dialect (veilWord)
open Token (isIdentifierByte IsWord)

namespace Text

theorem lt_of_isPlain {byte : UInt8} (h : isPlain byte) : byte < 0x80 := by
  rcases (Bool.or_eq_true _ _).mp h with hidentifier | hspace
  · exact (char_of_isIdentifierByte hidentifier).1
  · rw [beq_iff_eq.mp hspace]
    decide

variable {word : Text} {hidden : Bool}

theorem chars_around (hne : word ≠ []) (hword : ∀ byte ∈ word, isPlain byte) (left right : Text) :
    chars (left ++ word ++ right) = chars left ++ (chars word ++ chars right) := by
  have hright : ∀ word : Text, (∀ byte ∈ word, isPlain byte) →
      chars (word ++ right) = chars word ++ chars right := by
    intro word hword
    induction word with
    | nil => simp [chars]
    | cons byte word ih =>
      obtain ⟨hbyte, hlater⟩ := forall_mem_cons.mp hword
      rw [cons_append, chars_ascii (lt_of_isPlain hbyte), ih hlater,
        chars_ascii (lt_of_isPlain hbyte), cons_append]
  cases word with
  | nil => exact absurd rfl hne
  | cons byte word =>
    have hascii := lt_of_isPlain (hword byte mem_cons_self)
    have hbyte : isContinuation byte = false := by
      rw [Bool.eq_false_iff, Ne, isContinuation_iff]
      have : byte.toNat < 0x80 := by simpa [UInt8.lt_iff_toNat_lt] using hascii
      omega
    rw [append_assoc, cons_append, chars_append hbyte, ← cons_append, hright _ hword]

/-- A word has blanks exactly if it is hidden. -/
theorem isBlank_of_mem_veilWord (hword : ∀ byte ∈ word, isIdentifierByte byte) :
    ∀ char ∈ chars (veilWord hidden word), isBlank char = hidden := by
  cases hidden with
  | false =>
    exact isBlank_of_mem_chars fun byte hmem =>
      char_of_isIdentifierByte (hword byte hmem)
  | true =>
    have hspaces : ∀ count, ∀ char ∈ chars (replicate count space), isBlank char := by
      intro count
      induction count with
      | zero => simp [chars]
      | succ count ih =>
        rw [replicate_succ, chars_ascii (by decide)]
        exact forall_mem_cons.mpr ⟨by decide, ih⟩
    exact hspaces word.length

theorem chars_veilWord_ne_nil (hword : IsWord word) :
    chars (veilWord hidden word) ≠ [] := by
  intro hnil
  have hsize := byteSize_chars (veilWord hidden word)
  rw [hnil, length_veilWord] at hsize
  exact hword.ne_nil (length_eq_zero_iff.mp hsize.symm)

/-- The blanks at the start of characters around some that are all blank or all not. -/
theorem byteSize_takeWhile_around {front middle back : List Char}
    (hne : middle ≠ []) (hmiddle : ∀ char ∈ middle, isBlank char = hidden) :
    byteSize ((front ++ (middle ++ back)).takeWhile isBlank) =
      if hidden && front.all isBlank then
        byteSize front + byteSize middle + byteSize (back.takeWhile isBlank)
      else byteSize (front.takeWhile isBlank) := by
  induction front with
  | nil =>
    cases hidden with
    | true =>
      rw [nil_append, takeWhile_append_of_pos hmiddle, byteSize_append]
      simp [byteSize]
    | false =>
      cases middle with
      | nil => exact absurd rfl hne
      | cons char middle =>
        have hchar := hmiddle char mem_cons_self
        simp [hchar]
  | cons char front ih =>
    have hcons : ∀ chars, byteSize (char :: chars) = char.utf8Size + byteSize chars :=
      fun chars => rfl
    rw [cons_append, takeWhile_cons, takeWhile_cons, all_cons]
    cases isBlank char with
    | true =>
      simp only [if_true, Bool.true_and, hcons, ih]
      split <;> omega
    | false => simp

end Text

/-! ## Blanks at the ends -/

section Trim

variable {word : Text} (hidden : Bool) (left right : Text)

theorem Text.lead_word (hword : IsWord word) :
    byteSize ((chars (left ++ veilWord hidden word ++ right)).takeWhile isBlank) =
      if hidden && (chars left).all isBlank then
        left.length + word.length + byteSize ((chars right).takeWhile isBlank)
      else byteSize ((chars left).takeWhile isBlank) := by
  rw [chars_around (veilWord_ne_nil hword.ne_nil) (isPlain_of_mem_veilWord hword.identifier),
    byteSize_takeWhile_around (chars_veilWord_ne_nil hword)
      (isBlank_of_mem_veilWord hword.identifier), byteSize_chars, byteSize_chars,
    length_veilWord]

theorem Text.trail_word (hword : IsWord word) :
    byteSize ((chars (left ++ veilWord hidden word ++ right)).reverse.takeWhile isBlank) =
      if hidden && (chars right).all isBlank then
        right.length + word.length + byteSize ((chars left).reverse.takeWhile isBlank)
      else byteSize ((chars right).reverse.takeWhile isBlank) := by
  rw [chars_around (veilWord_ne_nil hword.ne_nil) (isPlain_of_mem_veilWord hword.identifier),
    reverse_append, reverse_append, append_assoc,
    byteSize_takeWhile_around (by simpa using chars_veilWord_ne_nil hword)
      (by simpa using isBlank_of_mem_veilWord hword.identifier), byteSize_reverse, byteSize_reverse,
    byteSize_chars, byteSize_chars, length_veilWord, all_reverse]

/-- A value around a word has the same ends without its blanks, up to the length of the word. -/
theorem Span.trim_word {start : Nat} (hstart : start ≤ left.length) (hword : IsWord word) :
    (Span.mk start (left ++ veilWord hidden word ++ right).length).trim
        (left ++ veilWord hidden word ++ right) =
      ((Span.mk start (left ++ veilWord hidden [hyphen] ++ right).length).trim
        (left ++ veilWord hidden [hyphen] ++ right)).stretch left.length word.length := by
  have hlength : 0 < word.length := length_pos_iff.mpr hword.ne_nil
  have hslice : ∀ word, (Span.mk start (left ++ veilWord hidden word ++ right).length).slice
      (left ++ veilWord hidden word ++ right) =
      left.drop start ++ veilWord hidden word ++ right := by
    intro word
    rw [slice, take_of_length_le (Nat.le_of_eq length_drop), append_assoc,
      drop_append_of_le_length hstart, append_assoc]
  have hlead := byteSize_takeWhile_le (chars (left.drop start)) isBlank
  have htrail := byteSize_takeWhile_le (chars right).reverse isBlank
  rw [byteSize_chars, length_drop] at hlead
  rw [byteSize_reverse, byteSize_chars] at htrail
  -- The blanks at either end stop before the word or, if it is hidden, may go on behind it.
  have hstarts : start + byteSize ((chars
      (left.drop start ++ veilWord hidden word ++ right)).takeWhile isBlank) =
      Restyle.stretch left.length word.length (start + byteSize ((chars
        (left.drop start ++ veilWord hidden [hyphen] ++ right)).takeWhile isBlank)) := by
    rw [lead_word hidden _ right hword, lead_word hidden _ right isWord_hyphen,
      length_drop, length_singleton]
    split
    · rw [stretch_of_lt (by omega)]; omega
    · rw [stretch_of_le (by omega)]
  have hstops : (left ++ veilWord hidden word ++ right).length - byteSize ((chars
      (left.drop start ++ veilWord hidden word ++ right)).reverse.takeWhile isBlank) =
      Restyle.stretch left.length word.length
        ((left ++ veilWord hidden [hyphen] ++ right).length - byteSize ((chars
          (left.drop start ++ veilWord hidden [hyphen] ++ right)).reverse.takeWhile isBlank)) := by
    rw [trail_word hidden _ right hword, trail_word hidden _ right isWord_hyphen]
    simp only [length_append, length_veilWord, length_singleton]
    split
    · rw [stretch_of_le (by omega)]; omega
    · rw [stretch_of_lt (by omega)]; omega
  rw [Span.trim, Span.trim, hslice, hslice]
  simp only [hstarts, hstops, stretch_le_stretch]
  split <;> rfl

end Trim

/-! ## Parts -/

/-- What does not depend on a word in a text does not depend on it in a slice. -/
theorem Span.slice_word {α : Type} {read : Text → α} {hidden : Bool} {word : Text}
    (hword : IsWord word) (h : ∀ left right, read (left ++ veilWord hidden word ++ right) =
      read (left ++ veilWord hidden [hyphen] ++ right)) (left right : Text) (span : Span) :
    read ((span.stretch left.length word.length).slice (left ++ veilWord hidden word ++ right)) =
      read (span.slice (left ++ veilWord hidden [hyphen] ++ right)) := by
  have hlength := length_veilWord hidden
  have hne := @Dialect.veilWord_ne_nil hidden _ hword.ne_nil
  simp only [slice, Span.stretch]
  by_cases hapart : span.stop ≤ left.length ∨ left.length < span.start
  · have hslice := @slice_apart _ left _ right span.start span.stop _ (hlength [hyphen]) hne hapart
    rw [hlength] at hslice
    rw [hslice]
  · have hslice := @slice_around _ left _ right span.start span.stop hne (by omega) (by omega)
    rw [hlength] at hslice
    rw [hslice, slice_around_one (hlength [hyphen]) (by omega) (by omega), h]

namespace Value

open Enclosure (outside)

variable {enclosure : Enclosure}

/-- An open quotation mark is none of the plain bytes. -/
def QuoteSound (enclosure : Enclosure) : Prop :=
  ∀ mark, enclosure.quote = some mark → isPlain mark = false

theorem QuoteSound.next (h : QuoteSound enclosure) (byte : UInt8) :
    QuoteSound (enclosure.next byte) := by
  intro mark hmark
  rcases quote_next hmark with hquote | rfl | rfl
  · exact h mark hquote
  · decide
  · decide

/-- The parts of a value are read in the same steps wherever a word stands. -/
theorem partsFrom_sameSteps (position length : Nat) :
    SameSteps position length (fun memory : Enclosure × Option Nat => QuoteSound memory.1)
      (fun memory => (memory.1, memory.2.map (stretch position length)))
      (Span.stretch position length) (fun offset memory => memory.1.partsFrom offset memory.2)
      (fun offset memory => memory.1.partsFrom offset memory.2) where
  step := by
    rintro offset ⟨enclosure, begun⟩ _ hquote byte
    simp only [partsFrom_cons]
    split
    · refine ⟨begun.toList.map fun start => ⟨start, offset⟩, (outside, none), nofun,
        fun _ => ⟨rfl, ?_⟩⟩
      cases begun <;> rfl
    · refine ⟨[], (enclosure.next byte, enclosure.begin offset begun byte), hquote.next byte,
        fun _ => ⟨rfl, ?_⟩⟩
      have hbegin : enclosure.begin (stretch position length offset)
          (begun.map (stretch position length)) byte =
          (enclosure.begin offset begun byte).map (stretch position length) := by
        unfold begin
        split <;> cases begun <;> rfl
      rw [hbegin]
      rfl
  stop := by
    rintro offset ⟨enclosure, begun⟩ _
    cases begun <;> rfl

/-- The parts that a word ends: a hidden one around which nothing is open ends the part in
progress. -/
def wordParts (hidden : Bool) (enclosure : Enclosure) (offset : Nat) (begun : Option Nat) :
    List Span :=
  if hidden && enclosure == outside then begun.toList.map fun start => ⟨start, offset⟩ else []

/-- Where the part in progress began after a word. -/
def wordStart (hidden : Bool) (enclosure : Enclosure) (offset : Nat) (begun : Option Nat) :
    Option Nat :=
  if hidden && enclosure == outside then none
  else if enclosure.quote.isSome then begun else begun.or (some offset)

/-- A plain byte opens and closes nothing. -/
theorem next_of_isPlain {byte : UInt8} (hbyte : isPlain byte) (h : QuoteSound enclosure) :
    enclosure.next byte = enclosure := by
  obtain ⟨depth, quote⟩ := enclosure
  cases quote with
  | some mark => simp [Enclosure.next, beq_of_isPlain hbyte (h mark rfl)]
  | none =>
    simp [Enclosure.next, Scan.depthNext,
      beq_of_isPlain hbyte (by decide : isPlain doubleQuote = false),
      beq_of_isPlain hbyte (by decide : isPlain apostrophe = false),
      beq_of_isPlain hbyte (by decide : isPlain openParen = false),
      beq_of_isPlain hbyte (by decide : isPlain closeParen = false)]

/-- A byte of a word ends and begins the parts that the word does. -/
theorem partsFrom_plain {hidden : Bool} {byte : UInt8}
    (hbyte : (if hidden then byte == space else isIdentifierByte byte) = true)
    (hquote : QuoteSound enclosure) (offset : Nat) (begun : Option Nat) (rest : Text) :
    enclosure.partsFrom offset begun (byte :: rest) =
      wordParts hidden enclosure offset begun ++
        enclosure.partsFrom (offset + 1) (wordStart hidden enclosure offset begun) rest := by
  have hplain : isPlain byte := by
    cases hidden with
    | true | false => simp_all [isPlain]
  have hspace : isSpace byte = hidden := by
    cases hidden with
    | true =>
      rw [if_pos rfl, beq_iff_eq] at hbyte
      rw [hbyte]
      decide
    | false =>
      have hne : ∀ other, isIdentifierByte other = false → (byte == other) = false :=
        fun other => beq_eq_false hbyte
      simp only [isSpace, hne 0x20 (by decide), hne 0x09 (by decide),
        hne 0x0A (by decide), hne 0x0C (by decide), hne 0x0D (by decide), Bool.or_false]
  rw [partsFrom_cons, next_of_isPlain hplain hquote, divides, hspace, Bool.and_comm, begin,
    beq_of_isPlain hplain (by decide : isPlain closeParen = false), Bool.or_false]
  unfold wordParts wordStart
  split
  next hends =>
    rw [beq_iff_eq.mp (Bool.and_eq_true_iff.mp hends).2]
  · rfl

variable {word : Text}

/-- A word ends and begins the same parts, however long it is. -/
theorem partsFrom_word {hidden : Bool} (hne : word ≠ [])
    (hword : ∀ byte ∈ word, isIdentifierByte byte) (hquote : QuoteSound enclosure)
    (offset : Nat) (begun : Option Nat) (rest : Text) :
    enclosure.partsFrom offset begun (veilWord hidden word ++ rest) =
      wordParts hidden enclosure offset begun ++ enclosure.partsFrom (offset + word.length)
        (wordStart hidden enclosure offset begun) rest := by
  induction word generalizing offset begun with
  | nil => exact absurd rfl hne
  | cons byte word ih =>
    obtain ⟨hbyte, hlater⟩ := forall_mem_cons.mp hword
    have hveil : veilWord hidden (byte :: word) =
        (if hidden then space else byte) :: veilWord hidden word := by
      cases hidden <;> rfl
    have hplain : (if hidden then (if hidden then space else byte) == space
        else isIdentifierByte (if hidden then space else byte)) = true := by
      cases hidden with
      | true => rfl
      | false => exact hbyte
    rw [hveil, cons_append, partsFrom_plain hplain hquote]
    refine congrArg (wordParts hidden enclosure offset begun ++ ·) ?_
    cases word with
    | nil => cases hidden <;> rfl
    | cons next word =>
      obtain ⟨hparts, hstart⟩ : wordParts hidden enclosure (offset + 1)
          (wordStart hidden enclosure offset begun) = [] ∧
          wordStart hidden enclosure (offset + 1) (wordStart hidden enclosure offset begun) =
            wordStart hidden enclosure offset begun := by
        unfold wordParts wordStart
        cases hidden && enclosure == outside <;> cases enclosure.quote <;> cases begun <;> simp
      have hplace : offset + 1 + (next :: word).length =
          offset + (byte :: next :: word).length := by
        simp only [length_cons]
        omega
      rw [ih (by simp) hlater, hparts, hstart, nil_append, hplace]

/-- The parts of a value around a word are the same, up to the length of the word. -/
theorem parts_word (hidden : Bool) (left right : Text) (hword : IsWord word) :
    parts (left ++ veilWord hidden word ++ right) =
      (parts (left ++ veilWord hidden [hyphen] ++ right)).map
        (Span.stretch left.length word.length) := by
  refine (partsFrom_sameSteps ..).around (Nat.zero_add _)
    (length_pos_iff.mpr hword.ne_nil) ?_ (outside, none) nofun
  rintro ⟨enclosure, begun⟩ hquote
  refine ⟨wordParts hidden enclosure left.length begun,
    (enclosure, wordStart hidden enclosure left.length begun), hquote, fun rest => ⟨?_, ?_⟩⟩
  · exact partsFrom_word isWord_hyphen.ne_nil isWord_hyphen.identifier hquote ..
  · have hstop : stretch left.length word.length left.length = left.length :=
      stretch_of_le (Nat.le_refl _)
    obtain ⟨hparts, hstart⟩ : wordParts hidden enclosure left.length
        (begun.map (stretch left.length word.length)) =
          (wordParts hidden enclosure left.length begun).map
            (Span.stretch left.length word.length) ∧
        wordStart hidden enclosure left.length (begun.map (stretch left.length word.length)) =
          (wordStart hidden enclosure left.length begun).map (stretch left.length word.length) := by
      unfold wordParts wordStart
      cases hidden && enclosure == outside <;> cases enclosure.quote <;> cases begun <;>
        simp [Span.stretch, hstop]
    rw [partsFrom_word hword.ne_nil hword.identifier hquote, hparts, hstart]

/-- Whether a value around a word is a list does not depend on the word. -/
theorem isList_word (name : Text) (hidden : Bool) (left right : Text) (hword : IsWord word) :
    isList name (left ++ veilWord hidden word ++ right) =
      isList name (left ++ veilWord hidden [hyphen] ++ right) := by
  have hblank : ∀ {word}, IsWord word → hasBlank (left ++ veilWord hidden word ++ right) =
      ((chars left).any isBlank || (hidden || (chars right).any isBlank)) := by
    intro word hword
    have hall : ∀ char ∈ chars (veilWord hidden word), isBlank char = hidden :=
      isBlank_of_mem_veilWord hword.identifier
    have hany : (chars (veilWord hidden word)).any isBlank = hidden := by
      cases hidden with
      | true =>
        obtain ⟨char, hmem⟩ := exists_mem_of_ne_nil _ (chars_veilWord_ne_nil hword)
        exact any_eq_true.mpr ⟨char, hmem, hall char hmem⟩
      | false =>
        exact any_eq_false.mpr fun char hmem => Bool.eq_false_iff.mp (hall char hmem)
    rw [hasBlank, chars_around (veilWord_ne_nil hword.ne_nil)
      (isPlain_of_mem_veilWord hword.identifier), any_append, any_append, hany]
  rw [isList, isList, hblank hword, hblank isWord_hyphen, parts_word hidden left right hword,
    length_map]

/-- Whether a slice of a text is a list does not depend on a word in the text. -/
theorem isList_slice_word (name : Text) (hidden : Bool) (left right : Text) (hword : IsWord word)
    (span : Span) :
    isList name ((span.stretch left.length word.length).slice
        (left ++ veilWord hidden word ++ right)) =
      isList name (span.slice (left ++ veilWord hidden [hyphen] ++ right)) :=
  slice_word hword (fun left right => isList_word name hidden left right hword) left right span

/-- The reading of the parts of a value is stable. -/
theorem codeParts_stable (dialect : Dialect) :
    StableReading fun value => (codeParts dialect value).map fun span => (span, ()) := by
  intro left word right hword _
  obtain ⟨left', right', hidden, hleft, hstrip⟩ :=
    dialect.stripComments_word left right (by decide : isIdentifierByte hyphen)
  refine ⟨(parts (left' ++ veilWord hidden [hyphen] ++ right')).map fun span => (span, ()),
    fun other hother => ?_⟩
  dsimp only
  rw [codeParts, hstrip other hother.identifier hother.head, parts_word hidden left' right' hother,
    hleft, map_map, map_map]
  rfl

end Value

end Restyle
