import Restyle.Proofs.Declaration.Literals
import Restyle.Proofs.Value.Literal

/-!
# The lexemes of a text

Read from the left, a text is made of bytes of code, literals and comments. A literal goes on to its
quotation mark or to the end of its line, a comment to the first asterisk with a slash behind it or
to the end of its line. What the comment scan blanks, byte by byte, are these comments
(`Dialect.stripFrom_eq`), and blanking them leaves nothing to be blanked
(`Dialect.stripFrom_stripFrom`). `Dialect.stripComments_exact` puts the two together.
-/

namespace Restyle

open Byte List Literal Scan

/-- What a text is made of. -/
inductive Lexeme.Kind where
  | code
  | literal
  | comment
  deriving DecidableEq, Repr

/-- A byte of code, a literal or a comment. -/
structure Lexeme where
  kind : Lexeme.Kind
  text : Text
  deriving DecidableEq, Repr

/-- The bytes of a lexeme, blanked if it is a comment. -/
def Lexeme.stripped (lexeme : Lexeme) : Text :=
  if lexeme.kind = .comment then lexeme.text.map blankByte else lexeme.text

/-- The number of bytes up to and with the first asterisk and slash, or of all of them. -/
def closeLength : Text → Nat
  | [] => 0
  | byte :: rest =>
    if byte == asterisk && rest.head? == some slash then 2 else closeLength rest + 1

namespace Dialect

/-- What begins with a byte of code at a depth of parentheses, and how many bytes of the rest belong
to it. -/
def lexeme (dialect : Dialect) (depth : Nat) (byte : UInt8) (rest : Text) : Lexeme.Kind × Nat :=
  if dialect.isQuote byte then (.literal, (readFrom byte (.literal byte) rest).1)
  else if byte == slash && rest.head? == some asterisk then
    (.comment, closeLength rest.tail + 1)
  else if byte == slash && rest.head? == some slash && dialect.opensLineComment depth then
    (.comment, (rest.takeWhile (· != newline)).length)
  else (.code, 0)

/-- The lexemes of a text, read from the left at a depth of parentheses. -/
def lexemes (dialect : Dialect) (depth : Nat) : Text → List Lexeme
  | [] => []
  | byte :: rest =>
    let (kind, length) := dialect.lexeme depth byte rest
    ⟨kind, byte :: rest.take length⟩ ::
      dialect.lexemes (depthNext depth byte) (rest.drop length)
  termination_by text => text.length
  decreasing_by
    rw [length_drop, length_cons]
    omega

variable {dialect : Dialect}

variable (depth : Nat)

/-- A line feed in code leads nowhere. -/
theorem stripFrom_newline (rest : Text) :
    dialect.stripFrom ⟨.code, depth⟩ (newline :: rest) =
      newline :: dialect.stripFrom ⟨.code, depth⟩ rest := by
  cases dialect <;> rfl

/-- An open literal is kept up to its end. -/
theorem stripFrom_literal {quote : UInt8} {mode : Scan.Mode} (hmode : Literal.IsOpen quote mode)
    (depth : Nat) (text : Text) :
    dialect.stripFrom ⟨mode, depth⟩ text =
      text.take (readFrom quote mode text).1 ++
        dialect.stripFrom ⟨.code, depth⟩ (text.drop (readFrom quote mode text).1) := by
  induction text generalizing mode with
  | nil => rfl
  | cons byte rest ih =>
    have hnext : (mk mode depth).next dialect byte rest.head? =
        ⟨Literal.next quote mode byte, depth⟩ := by
      rcases hmode with rfl | rfl <;> rfl
    have hcode : ∀ after, inComment ⟨mode, depth⟩ after = false := by
      rcases hmode with rfl | rfl <;> exact fun _ => rfl
    rw [stripFrom_cons, hcode, hnext, if_neg Bool.false_ne_true]
    rcases next_cases hmode byte with hopen | ⟨rfl, hends⟩
    · rw [readFrom_cons hopen, ih hopen]
      rfl
    · rw [readFrom, hends]
      by_cases hquote : byte = quote
      · simp [hquote]
      · -- The literal ends in front of a line feed.
        have hnewline : byte = newline := by
          simp only [Literal.next, literalNext] at hends
          split at hends
          · cases hends
          · split at hends
            next hcloses => simp_all
            · cases hends
        simp only [beq_iff_eq, hquote, if_false, take_zero, drop_zero, nil_append]
        rw [hnewline, stripFrom_newline]

/-- An open comment is blanked up to its end. -/
theorem stripFrom_comment (text : Text) :
    dialect.stripFrom ⟨.comment, depth⟩ text =
      (text.take (closeLength text)).map blankByte ++
        dialect.stripFrom ⟨.code, depth⟩ (text.drop (closeLength text)) := by
  induction text with
  | nil => rfl
  | cons byte rest ih =>
    rw [stripFrom_cons, closeLength, Scan.next]
    by_cases hcloses : (byte == asterisk && rest.head? == some slash)
    · obtain ⟨-, hslash⟩ := Bool.and_eq_true_iff.mp hcloses
      cases rest with
      | nil => cases hslash
      | cons next rest =>
        rw [if_pos hcloses, if_pos hcloses]
        rfl
    · rw [if_neg hcloses, if_neg hcloses, ih]
      rfl

/-- An open line comment is blanked up to its line feed. -/
theorem stripFrom_lineComment (text : Text) :
    dialect.stripFrom ⟨.lineComment, depth⟩ text =
      (text.take (text.takeWhile (· != newline)).length).map blankByte ++
        dialect.stripFrom ⟨.code, depth⟩
          (text.drop (text.takeWhile (· != newline)).length) := by
  induction text with
  | nil => rfl
  | cons byte rest ih =>
    rw [stripFrom_cons, Scan.next]
    by_cases hnewline : byte = newline
    · subst hnewline
      exact (stripFrom_newline ..).symm
    · simp [hnewline, inComment, ih]

/-- What begins in code is kept, or blanked if it is a comment, and behind it there is code
again. -/
theorem stripFrom_lexeme (byte : UInt8) (rest : Text) :
    dialect.stripFrom ⟨.code, depth⟩ (byte :: rest) =
      (Lexeme.mk (dialect.lexeme depth byte rest).1
        (byte :: rest.take (dialect.lexeme depth byte rest).2)).stripped ++
        dialect.stripFrom ⟨.code, depthNext depth byte⟩
          (rest.drop (dialect.lexeme depth byte rest).2) := by
  have hnext : (mk .code depth).next dialect byte rest.head? =
      ⟨codeNext dialect depth byte rest.head?, depthNext depth byte⟩ := rfl
  rw [stripFrom_cons, hnext, codeNext, lexeme]
  split
  · rw [stripFrom_literal (.inl rfl)]
    rfl
  · split
    next hopens =>
      obtain ⟨-, hasterisk⟩ := Bool.and_eq_true_iff.mp hopens
      cases rest with
      | nil => cases hasterisk
      | cons next rest =>
        change _ :: _ :: dialect.stripFrom ⟨.comment, depthNext depth byte⟩ rest = _
        rw [stripFrom_comment]
        rfl
    · split
      · rw [stripFrom_lineComment]
        rfl
      · rfl

theorem flatMap_lexemes (dialect : Dialect) (depth : Nat) (text : Text) :
    (dialect.lexemes depth text).flatMap Lexeme.text = text := by
  fun_induction lexemes dialect depth text with
  | case1 => rfl
  | case2 depth byte rest kind length hlexeme ih =>
    rw [flatMap_cons, ih, cons_append, take_append_drop]

/-- What is blanked of a text in code are its comments. -/
theorem stripFrom_eq (dialect : Dialect) (depth : Nat) (text : Text) :
    dialect.stripFrom ⟨.code, depth⟩ text =
      (dialect.lexemes depth text).flatMap Lexeme.stripped := by
  fun_induction lexemes dialect depth text with
  | case1 => rfl
  | case2 depth byte rest kind length hlexeme ih =>
    rw [stripFrom_lexeme, hlexeme, ih, flatMap_cons]

/-! ## Texts without comments -/

end Dialect

namespace Scan

variable {dialect : Dialect} {scan : Scan}

/-- Where the scan of the text without its comments stands. -/
def uncommented (scan : Scan) : Scan :=
  ⟨scan.literalMode, scan.depth⟩

theorem inComment_uncommented (before after : Scan) :
    inComment before.uncommented after.uncommented = false := by
  obtain ⟨mode, depth⟩ := before
  obtain ⟨mode', depth'⟩ := after
  cases mode <;> cases mode' <;> rfl

theorem next_blank {blank : UInt8} (h : blank = space ∨ blank = newline) (depth : Nat)
    (ahead : Option UInt8) : (mk .code depth).next dialect blank ahead = ⟨.code, depth⟩ := by
  rcases h with rfl | rfl <;> cases dialect <;> rfl

theorem uncommented_of_isOutside (h : scan.isOutside) : scan.uncommented = scan := by
  obtain ⟨mode, depth⟩ := scan
  cases mode with
  | code | literal | escape => rfl
  | commentOpening | comment | commentClosing | lineComment => cases h

/-- The scan goes over the text without its comments as over the text. -/
theorem next_uncommented {byte : UInt8} {ahead ahead' : Option UInt8}
    (hahead : ahead' = ahead ∨ ahead' = some space ∨ ahead' = some newline) :
    scan.uncommented.next dialect (scan.shown dialect byte ahead) ahead' =
      (scan.next dialect byte ahead).uncommented := by
  cases hmark : inComment scan (scan.next ..) with
  | true =>
    obtain ⟨hmode, hafter⟩ := literalMode_of_inComment hmark
    rw [uncommented, hmode, next_blank (shown_of_inComment hmark), uncommented, hafter,
      depth_of_inComment hmark]
  | false =>
    -- A byte outside comments leads to where it does before a blank.
    have houtside := isOutside_next hmark
    have hnext : scan.next dialect byte ahead' = scan.next dialect byte ahead := by
      rcases hahead with rfl | rfl | rfl
      · rfl
      all_goals exact next_of_isHarmless houtside rfl
    rw [shown, hmark, if_neg Bool.false_ne_true, uncommented_of_isOutside houtside]
    cases hscan : scan.isOutside with
    | true => rw [uncommented_of_isOutside hscan, hnext]
    | false =>
      obtain ⟨mode, depth⟩ := scan
      cases mode with
      | code | literal | escape => cases hscan
      | commentOpening | comment | commentClosing => cases hmark
      | lineComment =>
        rw [newline_of_unmarked rfl hmark]
        exact next_blank (.inr rfl) depth ahead'

end Scan

namespace Dialect

variable {dialect : Dialect}

variable (scan : Scan)

/-- A text without its comments begins as the text does, or with a blank. -/
theorem head_stripFrom (text : Text) :
    (dialect.stripFrom scan text).head? = text.head? ∨
      (dialect.stripFrom scan text).head? = some space ∨
      (dialect.stripFrom scan text).head? = some newline := by
  cases text with
  | nil => exact .inl rfl
  | cons byte rest =>
    have hhead : (dialect.stripFrom scan (byte :: rest)).head? =
        some (scan.shown dialect byte rest.head?) := by
      rfl
    rw [hhead]
    cases hmark : inComment scan (scan.next ..) with
    | true => exact .inr ((shown_of_inComment hmark).imp (congrArg some) (congrArg some))
    | false =>
      left
      rw [shown, hmark]
      rfl

/-- Blanking the comments of a text leaves none. -/
theorem stripFrom_stripFrom (text : Text) :
    dialect.stripFrom scan.uncommented (dialect.stripFrom scan text) =
      dialect.stripFrom scan text := by
  induction text generalizing scan with
  | nil => rfl
  | cons byte rest ih =>
    have hnext : scan.uncommented.next dialect (scan.shown dialect byte rest.head?)
        (dialect.stripFrom (scan.next dialect byte rest.head?) rest).head? =
        (scan.next ..).uncommented :=
      next_uncommented (head_stripFrom ..)
    rw [stripFrom_cons]
    change dialect.stripFrom scan.uncommented (scan.shown dialect byte rest.head? :: _) =
      scan.shown dialect byte rest.head? :: _
    rw [stripFrom_cons, hnext, inComment_uncommented, if_neg Bool.false_ne_true, ih]

/-- A byte of a text is kept or, unless it is a line feed, turned into a space. -/
theorem getElem?_stripFrom (text : Text) (offset : Nat) :
    (dialect.stripFrom scan text)[offset]? = text[offset]? ∨
      (dialect.stripFrom scan text)[offset]? = some space ∧
        ∃ byte ≠ newline, text[offset]? = some byte := by
  rw [stripFrom_eq_map, getElem?_map]
  have htext : text[offset]? = (scan.marks dialect text)[offset]?.map Prod.fst := by
    rw [← getElem?_map, map_fst_marks]
  rw [htext]
  cases (scan.marks ..)[offset]? with
  | none => exact .inl rfl
  | some mark =>
    obtain ⟨byte, hidden⟩ := mark
    by_cases hblanked : hidden ∧ byte ≠ newline
    · exact .inr ⟨by simp [hblanked, blankByte], byte, hblanked.2, rfl⟩
    · left
      cases hidden <;> simp_all [blankByte]

/-- Blanking comments keeps the length of a text and its line feeds and turns other bytes at most
into spaces. The bytes that it blanks are those of the comments among the lexemes, text in UTF-8
stays so, and a second time there is nothing to blank. -/
theorem stripComments_exact (dialect : Dialect) {text : Text} (h : Text.wellFormed text = true) :
    (dialect.stripComments text).length = text.length ∧
    (∀ offset : Nat, (dialect.stripComments text)[offset]? = some Byte.newline ↔
      text[offset]? = some Byte.newline) ∧
    (∀ offset : Nat, (dialect.stripComments text)[offset]? = text[offset]? ∨
      (dialect.stripComments text)[offset]? = some Byte.space) ∧
    (dialect.lexemes 0 text).flatMap Lexeme.text = text ∧
    dialect.stripComments text = (dialect.lexemes 0 text).flatMap Lexeme.stripped ∧
    Text.wellFormed (dialect.stripComments text) = true ∧
    dialect.stripComments (dialect.stripComments text) = dialect.stripComments text := by
  refine ⟨length_stripFrom dialect start text, ?_, ?_, dialect.flatMap_lexemes ..,
    dialect.stripFrom_eq .., wellFormed_stripComments h, stripFrom_stripFrom start text⟩
  · intro offset
    rcases @getElem?_stripFrom dialect start text offset with
      hkept | ⟨hspace, byte, hbyte, htext⟩
    · rw [stripComments, hkept]
    · have hblank : space ≠ newline := by decide
      simp [stripComments, hspace, htext, hbyte, hblank]
  · intro offset
    exact (getElem?_stripFrom start text offset).imp_right And.left

/-- A stylesheet with the marks of comments in a literal and in an address, a comment that its first
slash does not close, a comment up to the end of a line and one that is never closed. -/
def mixedComments : Text :=
  utf8 "a:'/*' url(//x) /*/é*/// b\x0a/*"

theorem stripComments_exact_mixedComments :
    Text.wellFormed mixedComments = true ∧
      (scss.lexemes 0 mixedComments).flatMap Lexeme.text = mixedComments ∧
      (scss.lexemes 0 mixedComments).flatMap Lexeme.stripped =
        utf8 "a:'/*' url(//x)            \x0a  " ∧
      scss.stripComments (utf8 "a:'/*' url(//x)            \x0a  ") =
        utf8 "a:'/*' url(//x)            \x0a  " := by
  have hformed : Text.wellFormed mixedComments = true := by decide
  have hstripped : scss.stripComments mixedComments = utf8 "a:'/*' url(//x)            \x0a  " := by
    decide
  obtain ⟨-, -, -, htext, hlexemes, -, htwice⟩ := stripComments_exact scss hformed
  rw [hstripped] at htwice hlexemes
  exact ⟨hformed, htext, hlexemes.symm, htwice⟩

end Dialect

end Restyle
