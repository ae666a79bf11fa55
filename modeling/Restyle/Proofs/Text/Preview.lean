import Mathlib.Data.Nat.PSub
import Restyle.Interaction.Terminal
import Restyle.Proofs.Text.Position

/-!
# Previews show the match

Positions are in the order of offsets (`Text.position_lt_iff`). A preview can always be built, its
lines are those around the offset, and its highlight is the match: `Preview.ofText_shows`.
-/

namespace Restyle

open Byte List Terminal

/-! ## Positions in order -/

/-- A position is on an earlier line than another, or on the same line in an earlier column. -/
def Position.Before (first second : Position) : Prop :=
  first.line < second.line ∨ first.line = second.line ∧ first.column < second.column

theorem Position.not_before (position : Position) : ¬ position.Before position := by
  simp [Before]

theorem Position.before_after_append (passed : List Char) {more : List Char} (hmore : more ≠ []) :
    (Position.after passed).Before (Position.after (passed ++ more)) := by
  have hpositive := length_pos_iff.mpr hmore
  unfold Before after
  simp only [count_append, reverse_append]
  by_cases hline : '\n' ∈ more
  · have := count_pos_iff.mpr hline
    exact .inl (by omega)
  · refine .inr ⟨by rw [count_eq_zero.mpr hline], ?_⟩
    rw [takeWhile_append_of_pos, length_append, length_reverse]
    · omega
    · intro char hchar
      rw [bne_iff_ne]
      rintro rfl
      exact hline (mem_reverse.mp hchar)

namespace Text

section

variable {text : Text} (hformed : wellFormed text)
include hformed

theorem position_lt {first second : Nat} (hfirst : isBoundary text first)
    (hsecond : isBoundary text second) (hlt : first < second) :
    (position text first).Before (position text second) := by
  obtain ⟨passed, hpassed⟩ := wellFormed_iff.mp (wellFormed_take_drop hformed hfirst).1
  obtain ⟨more, hmore⟩ := wellFormed_iff.mp (@Span.wellFormed_slice ⟨first, second⟩ _ hformed
    hfirst hsecond)
  have hboth : text.take second = ofChars (passed ++ more) := by
    rw [ofChars_append, ← hpassed, ← hmore, Span.slice, ← take_add, Nat.add_sub_cancel' hlt.le]
  rw [position_eq_after hformed hfirst, position_eq_after hformed hsecond, hpassed, hboth,
    chars_ofChars_self, chars_ofChars_self]
  refine Position.before_after_append passed fun hnil => ?_
  have hlength := congrArg length hmore
  have := le_length_of_isBoundary hsecond
  rw [hnil] at hlength
  simp [Span.slice, ofChars] at hlength
  omega

/-- Boundaries are in the order of their positions. -/
theorem position_lt_iff {first second : Nat} (hfirst : isBoundary text first)
    (hsecond : isBoundary text second) :
    first < second ↔ (position text first).Before (position text second) := by
  refine ⟨position_lt hformed hfirst hsecond, fun hbefore => ?_⟩
  by_contra hnot
  rcases Nat.eq_or_lt_of_not_lt hnot with rfl | hlt
  · exact Position.not_before _ hbefore
  · have hafter := position_lt hformed hsecond hfirst hlt
    unfold Position.Before at hbefore hafter
    omega

end

end Text

/-! ## Checked steps -/

namespace Preview

open Text

variable {text path : Text} {offset length : Nat}

/-- A sum, if it is below the limit of numbers. -/
def sum? (first second : Nat) : Option Nat :=
  if first + second < numberLimit then some (first + second) else none

theorem sum?_eq {first second : Nat} (h : first + second < numberLimit) :
    sum? first second = some (first + second) :=
  if_pos h

/-- The lines between two places, if they are in order and there are as many lines. -/
def linesBetween? (lines : List Text) (first second : Nat) : Option (List Text) :=
  if first ≤ second && second ≤ lines.length then some ((lines.drop first).take (second - first))
  else none

/-- The position of an offset, with every cut and every sum checked. -/
def position? (text : Text) (offset : Nat) : Option Position := do
  let stop := floorBoundary text (min offset text.length)
  let passed ← text.between? 0 stop
  let line ← sum? (passed.count newline) 1
  let lineStart := passed.length - (passed.reverse.takeWhile (· != newline)).length
  let column ← sum? (charCount (← text.between? lineStart stop)) 1
  return { line, column }

/-- The preview of some bytes of a text, with every cut, every sum and every difference checked. -/
def ofText? (text path : Text) (offset length : Nat) : Option Preview := do
  let position ← position? text offset
  let lines := lines text
  let index := min (← position.line.psub 1) (lines.length - 1)
  let start := index - contextLines
  let stop := min (← sum? (← sum? index 1) contextLines) lines.length
  let highlightStart ← position.column.psub 1
  let matchStop := min (← sum? offset length) text.length
  let beforeLines ← linesBetween? lines start index
  let afterLines ← linesBetween? lines (min (index + 1) stop) stop
  let highlightEnd ← sum? highlightStart (((text.between? offset matchStop).map charCount).getD 0)
  return { path, lineNumber := position.line, beforeLines, changeLine := (lines[index]?).getD [],
           afterLines, highlightStart, highlightEnd }

theorem isBoundary_floorBoundary (hformed : wellFormed text) (offset : Nat) :
    isBoundary text (floorBoundary text offset) := by
  induction offset with
  | zero => exact isBoundary_of_wellFormed (Nat.zero_le _) hformed
  | succ offset ih =>
    rw [floorBoundary]
    split
    next h => exact h
    · exact ih

theorem floorBoundary_le (text : Text) (offset : Nat) : floorBoundary text offset ≤ offset := by
  induction offset with
  | zero => exact Nat.le_refl _
  | succ offset ih =>
    rw [floorBoundary]
    split
    · exact Nat.le_refl _
    · exact Nat.le_succ_of_le ih

theorem length_before_le (text : Text) (offset : Nat) :
    (before text offset).length ≤ min offset text.length := by
  rw [before, length_take]
  exact Nat.min_le_left _ _ |>.trans (floorBoundary_le _ _)

theorem column_le (text : Text) (offset : Nat) :
    (position text offset).column ≤ (before text offset).length + 1 := by
  refine Nat.succ_le_succ (countP_le_length.trans ?_)
  exact (takeWhile_sublist _).length_le.trans_eq length_reverse

/-- Where the line of a boundary starts, there is a boundary, and nothing else is before the
offset on that line. -/
theorem between?_lastLine (hformed : wellFormed text) {stop : Nat} (hstop : isBoundary text stop) :
    text.between? ((text.take stop).length -
        ((text.take stop).reverse.takeWhile (· != newline)).length) stop =
      some ((text.take stop).reverse.takeWhile (· != newline)).reverse := by
  obtain ⟨passed, hpassed⟩ := wellFormed_iff.mp (wellFormed_take_drop hformed hstop).1
  have hsplit : passed = (passed.reverse.dropWhile (· != '\n')).reverse ++
      (passed.reverse.takeWhile (· != '\n')).reverse := by
    rw [← reverse_append, takeWhile_append_dropWhile, reverse_reverse]
  have hchars : chars ((Span.mk 0 stop).slice text) = passed :=
    (congrArg chars hpassed).trans (chars_ofChars_self passed)
  have hzero : isBoundary text 0 := isBoundary_of_wellFormed (Nat.zero_le _) hformed
  obtain ⟨hsize, hstart⟩ := @Span.isBoundary_of_chars ⟨0, stop⟩ text hformed (Nat.zero_le stop)
    (le_length_of_isBoundary hstop) hzero hstop _ _ (hchars.trans hsplit)
  have hslice := hpassed
  rw [hsplit, ofChars_append] at hslice
  rw [hpassed, lastLine_ofChars, ← hpassed, hslice, length_append, length_reverse, reverse_reverse,
    Nat.add_sub_cancel]
  simp only [Nat.zero_add, ← length_ofChars] at hsize hstart
  rw [between?_eq_some_iff, Span.slice, ← drop_take, hslice, drop_left]
  exact ⟨by omega, hstart, hstop, rfl⟩

theorem position?_eq (hformed : wellFormed text) (hfits : text.length + 1 < numberLimit)
    (offset : Nat) : position? text offset = some (position text offset) := by
  have hstop := isBoundary_floorBoundary hformed (min offset text.length)
  have hfirst : text.between? 0 (floorBoundary text (min offset text.length)) =
      some (before text offset) := by
    exact between?_eq_some_iff.mpr
      ⟨Nat.zero_le _, isBoundary_of_wellFormed (Nat.zero_le _) hformed, hstop, rfl⟩
  have hlast := between?_lastLine hformed hstop
  rw [← before] at hlast
  have hpassed := length_before_le text offset
  have hlines := count_le_length (a := newline) (l := before text offset)
  have hle := column_le text offset
  have hcolumn : charCount ((before text offset).reverse.takeWhile (· != newline)).reverse + 1 =
      (position text offset).column := by
    simp [position, charCount]
  simp only [position?, hfirst, hlast, Option.bind_eq_bind, Option.bind_some]
  rw [sum?_eq (by omega), Option.bind_some, sum?_eq (by omega), hcolumn]
  rfl

theorem line_le_length_lines (text : Text) (offset : Nat) :
    (position text offset).line ≤ (lines text).length := by
  rw [length_lines]
  exact Nat.succ_le_succ ((take_sublist _ _).count_le newline)

/-! ## What is shown -/

theorem lines_after {lines : List Text} {index : Nat} (h : index < lines.length) :
    linesBetween? lines (min (index + 1) (min (index + 1 + contextLines) lines.length))
        (min (index + 1 + contextLines) lines.length) =
      some ((lines.drop (index + 1)).take contextLines) := by
  rw [Nat.min_eq_left (by omega), linesBetween?, if_pos (by simp; omega)]
  congr 1
  rw [take_eq_take_iff, length_drop]
  omega

theorem matchWidth_le (text : Text) (offset length : Nat) :
    matchWidth text offset length ≤ text.length - offset := by
  rw [matchWidth, between?]
  split
  · refine countP_le_length.trans ?_
    rw [Span.slice, length_take, length_drop]
    exact Nat.min_le_right _ _
  · exact Nat.zero_le _

theorem ofText?_eq (hformed : wellFormed text)
    (hfits : text.length + contextLines + 1 < numberLimit)
    (hmatch : offset + length < numberLimit) (path : Text) :
    ofText? text path offset length = some (ofText text path offset length) := by
  have hline := line_le_length_lines text offset
  have hcount := length_lines text
  have hpositive : 1 ≤ (position text offset).line := Nat.succ_pos _
  have hcolumn : 1 ≤ (position text offset).column := Nat.succ_pos _
  have hnewlines := count_le_length (a := newline) (l := text)
  have hposition := position?_eq hformed (by omega) offset
  have hindex : min ((position text offset).line - 1) ((lines text).length - 1) =
      (position text offset).line - 1 := by omega
  simp only [ofText?, hposition, Option.bind_eq_bind, Option.bind_some, Nat.psub_eq_sub hpositive,
    Nat.psub_eq_sub hcolumn, hindex]
  rw [sum?_eq (by omega), Option.bind_some, sum?_eq (by omega), Option.bind_some, sum?_eq hmatch,
    Option.bind_some]
  have hpassed := length_before_le text offset
  have hcolumn := column_le text offset
  have hwidth := matchWidth_le text offset length
  rw [linesBetween?, if_pos (by simp; omega), Option.bind_some, lines_after (by omega),
    Option.bind_some, ← matchWidth, sum?_eq (by omega)]
  rfl

/-- The lines of a preview are those around the line of the offset. -/
theorem lines_shown (text path : Text) (offset length : Nat) :
    let preview := ofText text path offset length
    preview.beforeLines ++ [preview.changeLine] ++ preview.afterLines =
      ((lines text).take (min (lines text).length (preview.lineNumber + 5))).drop
        (max 1 (preview.lineNumber - 5) - 1) := by
  have hline := line_le_length_lines text offset
  have hpositive : 1 ≤ (position text offset).line := Nat.succ_pos _
  simp only [ofText, contextLines]
  generalize (position text offset).line = number at *
  generalize lines text = lines at *
  obtain ⟨index, rfl⟩ := Nat.exists_eq_add_of_le' hpositive
  simp only [Nat.add_sub_cancel]
  have hstart : max 1 (index + 1 - 5) - 1 = index - 5 := by omega
  have hend : (lines.drop (index - 5)).take (min lines.length (index + 1 + 5) - (index - 5)) =
      (lines.drop (index - 5)).take (index - (index - 5) + 1 + 5) := by
    rw [take_eq_take_iff, length_drop]
    omega
  have hindex : index - 5 + (index - (index - 5)) = index := by omega
  rw [hstart, drop_take, hend, take_add, take_add, drop_drop, drop_drop, ← Nat.add_assoc, hindex,
    drop_eq_getElem_cons hline, getElem?_eq_getElem hline]
  rfl

/-- The highlight of a preview is the match. -/
theorem highlight_shown (hformed : wellFormed text) (hstart : isBoundary text offset)
    (hstop : isBoundary text (offset + length))
    (hline : newline ∉ (Span.mk offset (offset + length)).slice text) (path : Text) :
    let preview := ofText text path offset length
    ((chars preview.changeLine).drop preview.highlightStart).take
        (preview.highlightEnd - preview.highlightStart) =
      chars ((Span.mk offset (offset + length)).slice text) := by
  obtain ⟨earlier, later, hcount, hlines⟩ := lines_append (text.take offset) (text.drop offset)
  rw [take_append_drop] at hlines
  obtain ⟨passed, hpassed⟩ := wellFormed_iff.mp (wellFormed_take_drop hformed hstart).1
  obtain ⟨shown, hshown⟩ := wellFormed_iff.mp
    (@Span.wellFormed_slice ⟨offset, offset + length⟩ _ hformed hstart hstop)
  have hwidth : matchWidth text offset length = shown.length := by
    rw [matchWidth, Nat.min_eq_left (le_length_of_isBoundary hstop),
      between?_eq_some_iff.mpr ⟨Nat.le_add_right .., hstart, hstop, hshown⟩]
    exact charCount_ofChars shown
  have hindex : (position text offset).line - 1 = earlier.length := by
    rw [position, before_of_isBoundary hstart, hcount]
    rfl
  have hcolumn : (position text offset).column - 1 =
      (passed.reverse.takeWhile (· != '\n')).reverse.length := by
    rw [position, before_of_isBoundary hstart, hpassed, charCount_lastLine, length_reverse]
    rfl
  have hright : (text.drop offset).takeWhile (· != newline) = ofChars shown ++
      (text.drop (offset + length)).takeWhile (· != newline) := by
    rw [← hshown, ← takeWhile_append_of_pos, Span.slice, Nat.add_sub_cancel_left, ← drop_drop,
      take_append_drop]
    intro byte hbyte
    rw [bne_iff_ne]
    rintro rfl
    exact hline hbyte
  simp only [ofText, hindex, hlines, hwidth, hcolumn]
  rw [getElem?_append_right (Nat.le_refl _), Nat.sub_self, getElem?_cons_zero, Option.getD_some,
    hpassed, lastLine_ofChars, reverse_reverse, hright, chars_ofChars, chars_ofChars, drop_left,
    Nat.add_sub_cancel_left, take_left, hshown, chars_ofChars_self]

/-- A preview of a text that memory can hold can be built and shown for every offset and length: no
step of it fails, its line is one of the text's, and no line that it numbers is before the first or
behind the last. Its lines are those up to five lines around, and its highlight is the match, if
that is on one line. Offsets at the boundaries of characters are in the order of their positions,
and told apart by them. -/
theorem ofText_shows (path : Text) (hformed : wellFormed text = true)
    (hfits : text.length + 6 < Terminal.numberLimit)
    (hmatch : offset + length < Terminal.numberLimit) :
    let preview := ofText text path offset length
    let count := (lines text).length
    let slice := (Span.mk offset (offset + length)).slice text
    ofText? text path offset length = some preview ∧
      preview.beforeLines.length < preview.lineNumber ∧
      preview.lineNumber + preview.afterLines.length ≤ count ∧
      1 ≤ preview.lineNumber ∧ preview.lineNumber ≤ count ∧
      preview.beforeLines ++ [preview.changeLine] ++ preview.afterLines =
        ((lines text).take (min count (preview.lineNumber + 5))).drop
          (max 1 (preview.lineNumber - 5) - 1) ∧
      (isBoundary text offset = true → isBoundary text (offset + length) = true →
        newline ∉ slice →
          ((chars preview.changeLine).drop preview.highlightStart).take
            (preview.highlightEnd - preview.highlightStart) = chars slice) ∧
      ∀ first second, isBoundary text first = true → isBoundary text second = true →
        (first < second ↔ (position text first).Before (position text second)) ∧
          (position text first = position text second → first = second) := by
  intro preview count slice
  have hline := line_le_length_lines text offset
  have hpositive : 1 ≤ (position text offset).line := Nat.succ_pos _
  refine ⟨ofText?_eq hformed hfits hmatch path, ?_, ?_, hpositive, hline,
    lines_shown text path offset length,
    fun hstart hstop hnewline => highlight_shown hformed hstart hstop hnewline path, ?_⟩
  · have hlength : preview.beforeLines.length ≤ (position text offset).line - 1 :=
      (length_take_le _ _).trans (Nat.sub_le _ _)
    exact Nat.lt_of_le_pred hpositive hlength
  · have hlength : preview.afterLines.length ≤ count - (position text offset).line := by
      refine (length_take_le' _ _).trans ?_
      rw [length_drop, Nat.sub_add_cancel hpositive]
    exact Nat.add_le_of_le_sub' hline hlength
  · intro first second hfirst hsecond
    have horder := position_lt_iff hformed hfirst hsecond
    have hback := position_lt_iff hformed hsecond hfirst
    refine ⟨horder, fun hsame => ?_⟩
    rw [hsame] at horder hback
    have hirrefl := (position text second).not_before
    exact Nat.le_antisymm (Nat.not_lt.mp (hirrefl ∘ hback.mp)) (Nat.not_lt.mp (hirrefl ∘ horder.mp))

/-- A match behind a line feed, in the middle of a line with a long character before it. -/
theorem ofText_shows_second_line :
    let text := utf8 "a\x7b\n é: red\x7d\n"
    let preview := ofText text (utf8 "a.css") 8 3
    wellFormed text = true ∧ text.length + 6 < numberLimit ∧
      8 + 3 < numberLimit ∧ isBoundary text 8 = true ∧ isBoundary text 11 = true ∧
      newline ∉ (Span.mk 8 11).slice text ∧ preview.lineNumber = 2 ∧
      ((chars preview.changeLine).drop preview.highlightStart).take
        (preview.highlightEnd - preview.highlightStart) = "red".toList := by
  have hshows := @ofText_shows (utf8 "a\x7b\n é: red\x7d\n") 8 3 (utf8 "a.css") (by decide)
    (by decide) (by decide)
  exact ⟨by decide, by decide, by decide, by decide, by decide, by decide, by decide,
    (hshows.2.2.2.2.2.2.1 (by decide) (by decide) (by decide)).trans (by decide)⟩

end Preview

end Restyle
