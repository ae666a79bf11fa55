import Restyle.Proofs.Text.Chars
import Restyle.Proofs.Text.Fill
import Restyle.Value.Parts

/-!
# What divides a value

A value is divided by the spaces around which nothing is open. `Enclosure` says what is open: so
many parentheses, and a quotation mark. The division goes over a value one text after the other
(`Enclosure.partsFrom_append`), and a stretch of the value that begins with no space and no closing
parenthesis lies in one part if and only if nothing in it divides the value:
`Value.exists_part_iff`.
-/

namespace Restyle

open Byte List

theorem Byte.isBlank_of_isSpace {byte : UInt8} (h : isSpace byte) :
    byte < 0x80 ∧ isBlank (Char.ofNat byte.toNat) := by
  simp only [isSpace, Bool.or_eq_true, beq_iff_eq] at h
  rcases h with (((rfl | rfl) | rfl) | rfl) | rfl <;> decide

/-- What is open around a place of a value: parentheses, and a quotation mark if there is one. -/
structure Enclosure where
  depth : Nat
  quote : Option UInt8
  deriving DecidableEq, Repr

namespace Enclosure

/-- Nothing is open. -/
def outside : Enclosure := ⟨0, none⟩

variable (enclosure : Enclosure)

/-- What is open after one more byte. Between quotation marks only the closing one counts. -/
def next (byte : UInt8) : Enclosure :=
  match enclosure.quote with
  | some mark => ⟨enclosure.depth, if byte == mark then none else some mark⟩
  | none =>
    ⟨Scan.depthNext enclosure.depth byte,
      if byte == doubleQuote || byte == apostrophe then some byte else none⟩

/-- What is open behind a text. -/
def after (text : Text) : Enclosure :=
  text.foldl next enclosure

/-- Whether a byte divides the value: it is a space around which nothing is open. -/
def divides (byte : UInt8) : Bool :=
  enclosure == outside && isSpace byte

/-- Whether no byte of a text divides the value. -/
def holds (enclosure : Enclosure) : Text → Bool
  | [] => true
  | byte :: rest => !enclosure.divides byte && (enclosure.next byte).holds rest

/-- The spans of the parts in a text that stands in the enclosure at `offset`, behind a part in
progress if one has begun. -/
def partsFrom (offset : Nat) (begun : Option Nat) (text : Text) : List Span :=
  Value.partsFrom offset enclosure.depth enclosure.quote begun text

/-- Where the part in progress has begun, once a byte is read that does not divide the value. A
closing parenthesis begins no part. -/
def begin (offset : Nat) (begun : Option Nat) (byte : UInt8) : Option Nat :=
  if enclosure.quote.isSome || byte == closeParen then begun else begun.or (some offset)

/-- Whether a byte outside parts begins none. -/
def isFiller (byte : UInt8) : Bool :=
  isSpace byte || byte == closeParen

theorem after_append (left right : Text) :
    enclosure.after (left ++ right) = (enclosure.after left).after right :=
  foldl_append

theorem holds_iff (text : Text) :
    enclosure.holds text ↔ ∀ index byte, text[index]? = some byte →
      (enclosure.after (text.take index)).divides byte = false := by
  induction text generalizing enclosure with
  | nil => simp [holds]
  | cons first rest ih =>
    rw [holds, Bool.and_eq_true, Bool.not_eq_true', ih]
    constructor
    · rintro ⟨hfirst, hrest⟩ index byte hbyte
      cases index with
      | zero =>
        obtain rfl := Option.some.inj hbyte
        exact hfirst
      | succ index => exact hrest index byte hbyte
    · intro h
      exact ⟨h 0 first rfl, fun index byte hbyte => h (index + 1) byte hbyte⟩

variable {enclosure} {offset : Nat} {begun : Option Nat} {byte : UInt8} {rest text : Text}

theorem next_of_isFiller (h : isFiller byte) : outside.next byte = outside := by
  simp only [isFiller, isSpace, Bool.or_eq_true, beq_iff_eq] at h
  rcases h with ((((rfl | rfl) | rfl) | rfl) | rfl) | rfl <;> rfl

theorem after_of_isFiller (h : text.all isFiller) : outside.after text = outside := by
  induction text with
  | nil => rfl
  | cons byte rest ih =>
    obtain ⟨hbyte, hrest⟩ := Bool.and_eq_true_iff.mp h
    rw [after, foldl_cons, next_of_isFiller hbyte]
    exact ih hrest

/-- An open quotation mark was open before, or it has just been opened. -/
theorem quote_next {mark : UInt8} (h : (enclosure.next byte).quote = some mark) :
    enclosure.quote = some mark ∨ mark = doubleQuote ∨ mark = apostrophe := by
  obtain ⟨depth, quote⟩ := enclosure
  cases quote with
  | some opened =>
    simp only [next] at h
    split at h
    · cases h
    · exact .inl h
  | none =>
    simp only [next] at h
    split at h
    next hquote =>
      obtain rfl := Option.some.inj h
      exact .inr (by simpa using hquote)
    · cases h

theorem begin_some (enclosure : Enclosure) (offset start : Nat) (byte : UInt8) :
    enclosure.begin offset (some start) byte = some start := by
  unfold begin
  split <;> rfl

/-- What the division does with one byte. It ends the part in progress where the byte divides the
value, and goes on with it elsewhere. -/
theorem partsFrom_cons (enclosure : Enclosure) (offset : Nat) (begun : Option Nat) (byte : UInt8)
    (rest : Text) :
    enclosure.partsFrom offset begun (byte :: rest) =
      if enclosure.divides byte then
        (begun.toList.map fun start => ⟨start, offset⟩) ++ outside.partsFrom (offset + 1) none rest
      else
        (enclosure.next byte).partsFrom (offset + 1) (enclosure.begin offset begun byte) rest := by
  obtain ⟨depth, quote⟩ := enclosure
  cases quote with
  | some mark =>
    have hdivides : (mk depth (some mark)).divides byte = false := by
      simp [divides, outside]
    rw [hdivides]
    rfl
  | none =>
    have hdivides : (mk depth none).divides byte = (isSpace byte && depth == 0) := by
      rw [divides, Bool.and_comm]
      congr 1
      rw [Bool.eq_iff_iff, beq_iff_eq, beq_iff_eq, mk.injEq]
      exact and_iff_left rfl
    rw [partsFrom, Value.partsFrom, hdivides, next]
    by_cases hquote : byte = doubleQuote ∨ byte = apostrophe
    · rcases hquote with rfl | rfl <;> rfl
    by_cases hopen : byte = openParen
    · subst hopen
      rfl
    by_cases hclose : byte = closeParen
    · subst hclose
      rfl
    have hmarks : (byte == doubleQuote || byte == apostrophe) = false := by
      simpa using hquote
    simp only [hmarks, beq_eq_false_iff_ne.mpr hopen, beq_eq_false_iff_ne.mpr hclose, begin,
      Scan.depthNext, Option.isSome_none, Bool.or_self, Bool.false_eq_true, if_false]
    split
    next hspace =>
      rw [beq_iff_eq.mp (Bool.and_eq_true_iff.mp hspace).2]
      rfl
    · rfl

/-- A part in progress goes on over a text that does not divide the value. -/
theorem partsFrom_of_holds (h : enclosure.holds text) (offset start : Nat) (rest : Text) :
    enclosure.partsFrom offset (some start) (text ++ rest) =
      (enclosure.after text).partsFrom (offset + text.length) (some start) rest := by
  induction text generalizing enclosure offset with
  | nil => rfl
  | cons byte text ih =>
    obtain ⟨hbyte, htext⟩ := Bool.and_eq_true_iff.mp h
    rw [cons_append, partsFrom_cons, if_neg (by simpa using hbyte), begin_some, ih htext,
      Nat.add_right_comm]
    rfl

/-- Outside parts, spaces and closing parentheses are passed over. -/
theorem partsFrom_of_isFiller (h : text.all isFiller) (offset : Nat) (rest : Text) :
    outside.partsFrom offset none (text ++ rest) =
      outside.partsFrom (offset + text.length) none rest := by
  induction text generalizing offset with
  | nil => rfl
  | cons byte text ih =>
    obtain ⟨hbyte, htext⟩ := Bool.and_eq_true_iff.mp h
    have hstep : outside.partsFrom offset none (byte :: (text ++ rest)) =
        outside.partsFrom (offset + 1) none (text ++ rest) := by
      rw [partsFrom_cons, next_of_isFiller hbyte]
      cases hspace : isSpace byte with
      | true => rw [if_pos (by simp [divides, hspace])]; rfl
      | false =>
        have hclose : (byte == closeParen) := by
          simpa [isFiller, hspace] using hbyte
        rw [if_neg (by simp [divides, hspace]), begin, hclose]
        rfl
    rw [cons_append, hstep, ih htext, length_cons, Nat.add_right_comm, Nat.add_assoc]

/-! ## The division goes on -/

/-- What is known where the division stands: nothing is open between parts, and a part in progress
has begun before. -/
def Admits (enclosure : Enclosure) (offset : Nat) : Option Nat → Prop
  | none => enclosure = outside
  | some start => start ≤ offset

/-- A byte that does not divide the value leads on. -/
theorem Admits.next (h : enclosure.Admits offset begun)
    (hbyte : enclosure.divides byte = false) :
    (enclosure.next byte).Admits (offset + 1) (enclosure.begin offset begun byte) := by
  cases begun with
  | some start =>
    rw [begin_some]
    exact Nat.le_succ_of_le h
  | none =>
    obtain rfl : enclosure = outside := h
    cases hclose : byte == closeParen with
    | true =>
      obtain rfl := beq_iff_eq.mp hclose
      rfl
    | false =>
      rw [begin, hclose]
      exact Nat.le_succ offset

/-- The division of a text in front of another one: the parts that end in it, and the part in
progress behind it. -/
theorem partsFrom_append (h : enclosure.Admits offset begun) (left rest : Text) :
    ∃ ended begun', enclosure.partsFrom offset begun (left ++ rest) =
        ended ++ (enclosure.after left).partsFrom (offset + left.length) begun' rest ∧
      (∀ span ∈ ended, span.stop ≤ offset + left.length) ∧
      (enclosure.after left).Admits (offset + left.length) begun' := by
  induction left generalizing enclosure offset begun with
  | nil => exact ⟨[], begun, rfl, by simp, h⟩
  | cons byte left ih =>
    have hlength : offset + (byte :: left).length = offset + 1 + left.length := by
      rw [length_cons]
      omega
    rw [cons_append, partsFrom_cons, hlength]
    cases hdivides : enclosure.divides byte with
    | false =>
      exact ih (h.next hdivides)
    | true =>
      obtain ⟨houtside, hspace⟩ := Bool.and_eq_true_iff.mp hdivides
      obtain rfl := beq_iff_eq.mp houtside
      obtain ⟨ended, begun', hparts, hended, hadmits⟩ := @ih outside (offset + 1) none rfl
      have hafter : outside.after (byte :: left) = outside.after left := by
        rw [after, foldl_cons, next_of_isFiller (by simp [isFiller, hspace])]
        rfl
      rw [hparts, ← append_assoc, hafter]
      refine ⟨_, begun', rfl, ?_, hadmits⟩
      intro span hspan
      rcases mem_append.mp hspan with hspan | hspan
      · obtain ⟨start, -, rfl⟩ := mem_map.mp hspan
        show offset ≤ _
        omega
      · exact hended span hspan

/-- A part in progress becomes a part that ends later on. -/
theorem exists_part_of_begun (enclosure : Enclosure) (offset start : Nat) (text : Text) :
    ∃ part ∈ enclosure.partsFrom offset (some start) text,
      part.start = start ∧ offset ≤ part.stop := by
  induction text generalizing enclosure offset with
  | nil => exact ⟨⟨start, offset⟩, mem_singleton_self _, rfl, Nat.le_refl _⟩
  | cons byte rest ih =>
    rw [partsFrom_cons, begin_some]
    split
    · exact ⟨⟨start, offset⟩, mem_cons_self, rfl, Nat.le_refl _⟩
    · obtain ⟨part, hpart, hstart, hstop⟩ := ih (enclosure.next byte) (offset + 1)
      exact ⟨part, hpart, hstart, Nat.le_of_succ_le hstop⟩

/-- The parts read from a place on begin with the part in progress and follow one another. -/
theorem partsFrom_ordered (h : begun.getD offset ≤ offset) (text : Text) :
    Span.Ordered (offset + text.length) (begun.getD offset)
      (enclosure.partsFrom offset begun text) := by
  induction text generalizing enclosure offset begun with
  | nil =>
    cases begun with
    | none => exact Nat.le_add_right _ _
    | some start => exact ⟨Nat.le_refl _, h, Nat.le_refl _⟩
  | cons byte rest ih =>
    have hlength : offset + (byte :: rest).length = offset + 1 + rest.length := by
      rw [length_cons]
      omega
    rw [partsFrom_cons, hlength]
    split
    · have hlater := (@ih outside (offset + 1) none (Nat.le_refl _)).mono (Nat.le_succ _)
      cases begun with
      | none => exact hlater
      | some start => exact ⟨Nat.le_refl _, h, hlater⟩
    · obtain ⟨hlow, hhigh⟩ : begun.getD offset ≤
          (enclosure.begin offset begun byte).getD (offset + 1) ∧
          (enclosure.begin offset begun byte).getD (offset + 1) ≤ offset + 1 := by
        cases begun with
        | some start =>
          rw [begin_some]
          exact ⟨Nat.le_refl _, Nat.le_succ_of_le h⟩
        | none =>
          unfold begin
          split <;> simp
      exact (ih hhigh).mono hlow

/-- Between parts, the next one begins later on. -/
theorem le_start_of_mem {part : Span} (h : part ∈ outside.partsFrom offset none text) :
    offset ≤ part.start := by
  have hordered : Span.Ordered (offset + text.length) offset (outside.partsFrom offset none text) :=
    @partsFrom_ordered outside offset none (Nat.le_refl _) text
  obtain ⟨before, later, hparts⟩ := append_of_mem h
  rw [hparts] at hordered
  obtain ⟨start, hle, hstart, -⟩ := hordered.of_append
  exact Nat.le_trans hle hstart

end Enclosure

namespace Value

open Enclosure (outside)

/-- Whether a value is divided at an offset: a space stands there, outside quotation marks and
parentheses. -/
def dividesAt (value : Text) (offset : Nat) : Bool :=
  value[offset]?.any (outside.after (value.take offset)).divides

/-- A value is divided by the byte at an offset. -/
theorem dividesAt_iff (value : Text) (offset : Nat) : dividesAt value offset ↔
    ∃ byte, value[offset]? = some byte ∧
      (outside.after (value.take offset)).divides byte := by
  unfold dividesAt
  cases value[offset]? <;> simp

/-- Nothing that divides a value lies in a part. -/
theorem not_dividesAt_of_mem_parts {value : Text} {part : Span} {offset : Nat}
    (hpart : part ∈ parts value) (hstart : part.start ≤ offset) (hstop : offset < part.stop) :
    dividesAt value offset = false := by
  rw [Bool.eq_false_iff]
  intro hdividesAt
  obtain ⟨byte, hbyte, hdivides⟩ := (dividesAt_iff ..).mp hdividesAt
  obtain ⟨hlt, rfl⟩ := List.getElem?_eq_some_iff.mp hbyte
  have hlength : (value.take offset).length = offset := length_take_of_le (Nat.le_of_lt hlt)
  obtain ⟨ended, begun, hparts, hended, -⟩ := Enclosure.partsFrom_append
    (show outside.Admits 0 none from rfl) (value.take offset) (value.drop offset)
  rw [take_append_drop, hlength, Nat.zero_add, drop_eq_getElem_cons hlt,
    Enclosure.partsFrom_cons, if_pos hdivides] at hparts
  change part ∈ outside.partsFrom 0 none value at hpart
  rw [hparts, mem_append, mem_append] at hpart
  -- A part has ended in front of the space, or it begins behind it.
  rcases hpart with hpart | hpart | hpart
  · have := hended part hpart
    omega
  · obtain ⟨start, -, rfl⟩ := mem_map.mp hpart
    exact Nat.lt_irrefl offset hstop
  · have := Enclosure.le_start_of_mem hpart
    omega

/-- A stretch of a value is divided at none of its offsets. -/
theorem holds_slice_iff (value : Text) (span : Span) :
    (outside.after (value.take span.start)).holds (span.slice value) ↔
      ∀ offset, span.start ≤ offset → offset < span.stop → dividesAt value offset = false := by
  have hafter : ∀ {index}, index < span.stop - span.start →
      (outside.after (value.take span.start)).after ((span.slice value).take index) =
        outside.after (value.take (span.start + index)) := by
    intro index hindex
    rw [← Enclosure.after_append, Span.slice, take_take, Nat.min_eq_left (Nat.le_of_lt hindex),
      ← take_add]
  have hbyte : ∀ {index}, index < span.stop - span.start →
      (span.slice value)[index]? = value[span.start + index]? := by
    intro index hindex
    rw [Span.slice, getElem?_take_of_lt hindex, getElem?_drop]
  rw [Enclosure.holds_iff]
  constructor
  · intro h offset hstart hstop
    obtain ⟨index, rfl⟩ := Nat.exists_eq_add_of_le hstart
    have hindex : index < span.stop - span.start := by omega
    rw [Bool.eq_false_iff, ne_eq, dividesAt_iff]
    rintro ⟨byte, hmem, hdivides⟩
    rw [← hafter hindex, h index byte (hbyte hindex ▸ hmem)] at hdivides
    cases hdivides
  · intro h index byte hmem
    have hindex : index < span.stop - span.start := by
      have := (List.getElem?_eq_some_iff.mp hmem).1
      rw [Span.slice, length_take] at this
      omega
    have hnot := h (span.start + index) (Nat.le_add_right _ _) (by omega)
    rw [Bool.eq_false_iff, ne_eq, dividesAt_iff] at hnot
    rw [hafter hindex, Bool.eq_false_iff]
    exact fun hdivides => hnot ⟨byte, hbyte hindex ▸ hmem, hdivides⟩

/-- A stretch of a value begins with no space and no closing parenthesis. It lies in one part if and
only if nothing in it divides the value. -/
theorem exists_part_iff {value : Text} {start stop : Nat} {first : UInt8}
    (hfirst : value[start]? = some first) (hbegins : Enclosure.isFiller first = false)
    (horder : start < stop) (hbound : stop ≤ value.length) :
    (∃ part ∈ parts value, part.start ≤ start ∧ stop ≤ part.stop) ↔
      ∀ offset, start ≤ offset → offset < stop → dividesAt value offset = false := by
  constructor
  · rintro ⟨part, hpart, hstart, hstop⟩ offset hle hlt
    exact not_dividesAt_of_mem_parts hpart (Nat.le_trans hstart hle) (Nat.lt_of_lt_of_le hlt hstop)
  intro hdivides
  obtain ⟨hlt, rfl⟩ := List.getElem?_eq_some_iff.mp hfirst
  have hlength : (value.take start).length = start := length_take_of_le (Nat.le_of_lt hlt)
  obtain ⟨ended, begun, hparts, -, hadmits⟩ := Enclosure.partsFrom_append
    (show outside.Admits 0 none from rfl) (value.take start) (value.drop start)
  rw [hlength, Nat.zero_add] at hparts hadmits
  rw [take_append_drop] at hparts
  -- The stretch is its first byte and what follows, and its first byte belongs to a part.
  have hholds := (holds_slice_iff value ⟨start, stop⟩).mpr hdivides
  have hslice : (Span.mk start stop).slice value =
      value[start] :: (Span.mk (start + 1) stop).slice value := by
    rw [Span.slice, drop_eq_getElem_cons hlt, show stop - start = stop - (start + 1) + 1 by
      omega]
    rfl
  rw [hslice, Enclosure.holds, Bool.and_eq_true, Bool.not_eq_true'] at hholds
  obtain ⟨begins, hbegun, hle⟩ : ∃ begins, (outside.after (value.take start)).begin start begun
      value[start] = some begins ∧ begins ≤ start := by
    cases begun with
    | some begins => exact ⟨begins, Enclosure.begin_some .., hadmits⟩
    | none =>
      refine ⟨start, ?_, Nat.le_refl start⟩
      have hclose : (value[start] == closeParen) = false := by
        simp only [Enclosure.isFiller, Bool.or_eq_false_iff] at hbegins
        exact hbegins.2
      rw [show outside.after (value.take start) = outside from hadmits, Enclosure.begin, hclose]
      rfl
  rw [drop_eq_getElem_cons hlt, Enclosure.partsFrom_cons, if_neg (by simp [hholds.1]), hbegun,
    ← Text.slice_append_drop (show start + 1 ≤ stop from horder) value,
    Enclosure.partsFrom_of_holds hholds.2, Span.length_slice hbound] at hparts
  obtain ⟨part, hpart, hstart, hstop⟩ := Enclosure.exists_part_of_begun
    (((outside.after (value.take start)).next value[start]).after
      ((Span.mk (start + 1) stop).slice value)) (start + 1 + (stop - (start + 1))) begins
    (value.drop stop)
  refine ⟨part, ?_, hstart ▸ hle, by omega⟩
  show part ∈ outside.partsFrom 0 none value
  rw [hparts]
  exact mem_append_right ended hpart

end Value

end Restyle
