import Mathlib.Data.List.TakeWhile
import Restyle.Proofs.Text.Boundary

/-!
# Lines and columns

A position is computed from bytes: line feeds are counted, and in the last line the bytes that begin
a character. `Text.position_eq_after` says what it means. At a boundary of a well-formed text the
line counts the line feeds among the characters before it, and the column counts the characters
behind the last of them. The lines of a text are what stands between its line feeds
(`Text.flatMap_lines`), and an offset is on the line of that number (`Text.lines_append`).
-/

namespace Restyle

open List

/-- The position behind some characters. -/
def Position.after (passed : List Char) : Position :=
  ⟨passed.count '\n' + 1, (passed.reverse.takeWhile (· != '\n')).length + 1⟩

namespace Text

theorem charCount_encode (char : Char) : charCount (String.utf8EncodeChar char) = 1 := by
  obtain ⟨first, rest, hencode, hfirst⟩ := encode_head char
  have hrest := encode_tail char
  rw [hencode] at hrest
  rw [hencode, charCount, countP_cons_of_pos (by simp [hfirst])]
  simpa using hrest

theorem newline_notMem_encode {char : Char} (h : char ≠ '\n') :
    Byte.newline ∉ String.utf8EncodeChar char := by
  intro hmem
  rcases encode_cases char with ⟨byte, hencode, -, hchar⟩ | hhigh
  · rw [hencode, mem_singleton] at hmem
    rw [← hmem] at hchar
    exact h (hchar.symm.trans rfl)
  · exact hhigh _ hmem (by decide)

theorem count_newline_ofChars (passed : List Char) :
    (ofChars passed).count Byte.newline = passed.count '\n' := by
  induction passed with
  | nil => rfl
  | cons char later ih =>
    rw [ofChars, flatMap_cons, count_append, ← ofChars, ih, count_cons, Nat.add_comm]
    by_cases hchar : char = '\n'
    · rw [hchar]
      rfl
    · rw [count_eq_zero.mpr (newline_notMem_encode hchar), if_neg (by simpa using hchar)]

theorem charCount_ofChars (passed : List Char) : charCount (ofChars passed) = passed.length := by
  induction passed with
  | nil => rfl
  | cons char later ih =>
    have hchar := charCount_encode char
    rw [charCount] at ih hchar ⊢
    rw [ofChars, flatMap_cons, countP_append, ← ofChars, ih, hchar, length_cons, Nat.add_comm]

/-- The last line of an encoding is the encoding of the last line. -/
theorem lastLine_ofChars (passed : List Char) :
    (ofChars passed).reverse.takeWhile (· != Byte.newline) =
      (ofChars (passed.reverse.takeWhile (· != '\n')).reverse).reverse := by
  -- The characters are taken from the end of the line.
  generalize hback : passed.reverse = back
  rw [← reverse_reverse passed, hback]
  clear hback
  induction back with
  | nil => rfl
  | cons char later ih =>
    have hencoding : ∀ others : List Char, (ofChars (char :: others).reverse).reverse =
        (String.utf8EncodeChar char).reverse ++ (ofChars others.reverse).reverse := by
      simp [ofChars]
    rw [hencoding]
    by_cases hchar : char = '\n'
    · rw [hchar]
      rfl
    · have hkept : ∀ byte ∈ (String.utf8EncodeChar char).reverse, (byte != Byte.newline) := by
        intro byte hbyte
        rw [bne_iff_ne]
        rintro rfl
        exact newline_notMem_encode hchar (mem_reverse.mp hbyte)
      rw [takeWhile_append_of_pos hkept, takeWhile_cons_of_pos (by simpa using hchar), hencoding,
        ih]

theorem charCount_lastLine (passed : List Char) :
    charCount ((ofChars passed).reverse.takeWhile (· != Byte.newline)) =
      (passed.reverse.takeWhile (· != '\n')).length := by
  rw [lastLine_ofChars, charCount, countP_reverse, ← charCount, charCount_ofChars, length_reverse]

theorem before_of_isBoundary {text : Text} {offset : Nat} (h : isBoundary text offset) :
    before text offset = text.take offset := by
  rw [before, Nat.min_eq_left (le_length_of_isBoundary h)]
  cases offset with
  | zero => rfl
  | succ offset => rw [floorBoundary, if_pos h]

/-- The position of a boundary of a well-formed text is told by the characters before it. -/
theorem position_eq_after {text : Text} {offset : Nat} (hformed : wellFormed text)
    (hoffset : isBoundary text offset) :
    position text offset = Position.after (chars (text.take offset)) := by
  obtain ⟨passed, hpassed⟩ := wellFormed_iff.mp (wellFormed_take_drop hformed hoffset).1
  rw [position, before_of_isBoundary hoffset, hpassed, chars_ofChars_self, count_newline_ofChars,
    charCount_lastLine, Position.after]

/-! ## Lines -/

open Byte

theorem length_lines (text : Text) : (lines text).length = text.count newline + 1 := by
  induction text with
  | nil => rfl
  | cons byte rest ih =>
    rw [lines]
    split
    next h => simp [ih, beq_iff_eq.mp h]
    next h =>
      rw [count_cons, if_neg h, Nat.add_zero, ← ih]
      cases hlines : lines rest <;> simp_all

theorem newline_notMem_lines (text : Text) : ∀ line ∈ lines text, newline ∉ line := by
  induction text with
  | nil => simp [lines]
  | cons byte rest ih =>
    rw [lines]
    split
    · simpa using ih
    next h => cases hlines : lines rest <;> simp_all [Ne.symm]

theorem flatMap_lines (text : Text) :
    (lines text).flatMap (· ++ [newline]) = text ++ [newline] := by
  induction text with
  | nil => rfl
  | cons byte rest ih =>
    have hlength := length_lines rest
    rw [lines]
    split
    next h => simpa [beq_iff_eq.mp h] using ih
    · cases hlines : lines rest <;> simp_all

theorem lines_newline (text rest : Text) :
    lines (text ++ newline :: rest) = lines text ++ lines rest := by
  induction text with
  | nil => rfl
  | cons byte text ih =>
    have hlength := length_lines text
    rw [cons_append, lines, lines, ih]
    split
    · rfl
    · cases hlines : lines text <;> simp_all

/-- What stands before the first line feed is in the first line. -/
theorem exists_lines {line : Text} (hline : newline ∉ line) (rest : Text) :
    ∃ later, lines (line ++ rest) = (line ++ rest.takeWhile (· != newline)) :: later := by
  induction line with
  | nil =>
    induction rest with
    | nil => exact ⟨[], rfl⟩
    | cons byte rest ih =>
      obtain ⟨later, hlines⟩ := ih
      by_cases hbyte : byte = newline <;> simp_all [lines]
  | cons byte line ih =>
    rw [mem_cons, not_or] at hline
    obtain ⟨later, hlines⟩ := ih hline.2
    exact ⟨later, by simp [lines, hlines, Ne.symm hline.1]⟩

/-- The line on which a text is cut in two: the end of the first part and the beginning of the
second. As many lines are before it as the first part has line feeds. -/
theorem lines_append (left right : Text) :
    ∃ earlier later, earlier.length = left.count newline ∧ lines (left ++ right) = earlier ++
      ((left.reverse.takeWhile (· != newline)).reverse ++ right.takeWhile (· != newline)) ::
        later := by
  have hlast : newline ∉ (left.reverse.takeWhile (· != newline)).reverse := by
    intro hmem
    simpa using mem_takeWhile_imp (mem_reverse.mp hmem)
  obtain ⟨later, hlines⟩ := exists_lines hlast right
  have hstop := head?_dropWhile_not (· != newline) left.reverse
  have hleft : (left.reverse.dropWhile (· != newline)).reverse ++
      (left.reverse.takeWhile (· != newline)).reverse = left := by
    rw [← reverse_append, takeWhile_append_dropWhile, reverse_reverse]
  generalize (left.reverse.takeWhile (· != newline)).reverse = last at hlast hlines hleft ⊢
  cases hdrop : left.reverse.dropWhile (· != newline) with
  | nil =>
    rw [hdrop, reverse_nil, nil_append] at hleft
    exact ⟨[], later, by rw [← hleft, count_eq_zero.mpr hlast]; rfl, by rw [← hleft, hlines]; rfl⟩
  | cons byte before =>
    obtain rfl : byte = newline := by simpa [hdrop] using hstop
    rw [hdrop, reverse_cons, append_assoc, singleton_append] at hleft
    refine ⟨lines before.reverse, later, ?_, ?_⟩
    · rw [← hleft, length_lines, count_append, count_cons_self, count_eq_zero.mpr hlast]
    · rw [← hleft, append_assoc, cons_append, lines_newline, hlines]

end Text

end Restyle
