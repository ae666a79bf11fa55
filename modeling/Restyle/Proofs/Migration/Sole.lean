import Restyle.Proofs.Declaration.Literals
import Restyle.Proofs.Declaration.Words
import Restyle.Proofs.Migration.Targets

/-!
# A stylesheet with one declaration

Each reader of a stylesheet passes over code that holds nothing of what it looks for, and leaves
what follows untouched: the comment scan (`Scan.run_of_code`), the reader of visible bytes
(`Sight.visible_append`), the search for blocks (`Block.closed_append`) and that for entries
(`Declaration.entries_append`). So a stylesheet that declares one value in one block has that value
for its only target: `Stylesheet.targets_sole`.
-/

namespace Restyle

open Byte Declaration Dialect List Text

variable {text : Text} {dialect : Dialect}

theorem foldl_eq_zero {next : Nat → UInt8 → Nat} (h : ∀ byte ∈ text, next 0 byte = 0) :
    text.foldl next 0 = 0 := by
  induction text with
  | nil => rfl
  | cons byte rest ih =>
    obtain ⟨hbyte, hrest⟩ := forall_mem_cons.mp h
    rw [foldl_cons, hbyte, ih hrest]

/-! ## Code without comments -/

theorem Marked.unmarked_of_runs {text : Marked} (h : text.runs = []) :
    ∀ mark ∈ text, mark.2 = false := by
  induction text with
  | nil => simp
  | cons mark rest ih =>
    obtain ⟨byte, marked⟩ := mark
    cases marked with
    | false => exact forall_mem_cons.mpr ⟨rfl, ih h⟩
    | true =>
      have hne : extend byte (beginsMarked rest) (runs rest) ≠ [] := by
        unfold extend
        split <;> exact cons_ne_nil _ _
      exact absurd h hne

namespace Scan

variable {dialect : Dialect} {scan : Scan} {text : Text}

variable {ahead : Option UInt8}

/-- Code without quotation marks and comments leads to code. -/
theorem run_of_code (hmode : scan.mode = .code)
    (hquote : ∀ byte ∈ text, dialect.isQuote byte = false)
    (hmarks : ∀ mark ∈ scan.marksUntil dialect ahead text, mark.2 = false) :
    scan.run dialect ahead text = ⟨.code, text.foldl depthNext scan.depth⟩ := by
  induction text generalizing scan with
  | nil => exact congrArg (Scan.mk · scan.depth) hmode
  | cons byte rest ih =>
    obtain ⟨hbyte, hrest⟩ := forall_mem_cons.mp hquote
    rw [marksUntil_cons] at hmarks
    obtain ⟨hmark, hlater⟩ := forall_mem_cons.mp hmarks
    have hnext : scan.next dialect byte (rest.head?.or ahead) =
        ⟨.code, depthNext scan.depth byte⟩ := by
      obtain ⟨mode, depth⟩ := scan
      obtain rfl : mode = .code := hmode
      refine congrArg (Scan.mk · (depthNext depth byte)) ?_
      rw [codeNext_of_unmarked hmark, hbyte]
      rfl
    rw [hnext] at hlater
    rw [run, hnext]
    exact ih rfl hrest hlater

/-- Code without quotation marks and comments has none before a harmless byte either. -/
theorem unmarked_until (hmode : scan.mode = .code)
    (hquote : ∀ byte ∈ text, dialect.isQuote byte = false)
    (hmarks : ∀ mark ∈ scan.marks dialect text, mark.2 = false) (hahead : isHarmless ahead) :
    (∀ mark ∈ scan.marksUntil dialect ahead text, mark.2 = false) ∧
      scan.run dialect ahead text = ⟨.code, text.foldl depthNext scan.depth⟩ := by
  rw [← marksUntil_none] at hmarks
  have hrun := run_of_code hmode hquote hmarks
  have houtside : (scan.run dialect none text).isOutside := by rw [hrun]; rfl
  obtain ⟨hsame, hsameMarks⟩ := run_of_isHarmless houtside hahead
  exact ⟨hsameMarks ▸ hmarks, hsame.trans hrun⟩

/-- Whether the byte moves the scan nowhere in code outside parentheses. -/
def isIdle (dialect : Dialect) (byte : UInt8) : Bool :=
  isPassed dialect byte && byte != slash && depthNext 0 byte == 0

/-- A text of idle bytes has no comments and leaves the scan where it stands outside parentheses. -/
theorem unmarked_of_isIdle (h : text.all (isIdle dialect)) (hmode : scan.mode = .code)
    (ahead : Option UInt8) :
    (∀ mark ∈ scan.marksUntil dialect ahead text, mark.2 = false) ∧
      (scan.depth = 0 → scan.run dialect ahead text = scan) := by
  have hidle : ∀ byte ∈ text, (isPassed dialect byte ∧ byte ≠ slash) ∧
      depthNext 0 byte = 0 := by
    intro byte hmem
    simpa [isIdle] using all_eq_true.mp h byte hmem
  have hquote : ∀ byte ∈ text, dialect.isQuote byte = false := by
    intro byte hmem
    have hpassed := (hidle byte hmem).1.1
    simp only [isPassed, Bool.and_eq_true, Bool.not_eq_true'] at hpassed
    exact hpassed.1.1
  obtain ⟨mode, depth⟩ := scan
  obtain rfl : mode = .code := hmode
  have hmarks := @unmarked_of_slash_notMem dialect ⟨.code, depth⟩ text
    (fun hmem => (hidle _ hmem).1.2 rfl) rfl ahead
  refine ⟨hmarks, fun hdepth => ?_⟩
  obtain rfl : depth = 0 := hdepth
  rw [run_of_code rfl hquote hmarks]
  exact congrArg (Scan.mk .code) (foldl_eq_zero fun byte hmem => (hidle byte hmem).2)

end Scan

/-- A text without comments stays as it is when they are blanked. -/
theorem Dialect.stripFrom_of_unmarked {scan : Scan}
    (h : ∀ mark ∈ scan.marks dialect text, mark.2 = false) :
    dialect.stripFrom scan text = text := by
  induction text generalizing scan with
  | nil => rfl
  | cons byte rest ih =>
    rw [Scan.marks_cons] at h
    obtain ⟨hmark, hlater⟩ := forall_mem_cons.mp h
    rw [stripFrom_cons, ih hlater]
    simp only at hmark
    rw [hmark, if_neg Bool.false_ne_true]

/-! ## Code without braces -/

/-- A byte is seen that neither opens a literal nor an interpolation. -/
theorem Sight.visible_cons {byte : UInt8} {rest : Text} (hquote : dialect.isQuote byte = false)
    (hopens : byte ≠ hash ∨ rest.head? ≠ some openBrace) :
    Sight.clear.visible dialect (byte :: rest) =
      (byte, true) :: Sight.clear.visible dialect rest := by
  have hnone : dialect.interpolationLength? (byte :: rest) = none := by
    rw [interpolationLength?, if_neg]
    simp only [Bool.and_eq_true, beq_iff_eq, not_and]
    rintro ⟨-, hhash⟩ hbrace
    exact hopens.elim (· hhash) (· hbrace)
  simp [Sight.visible, Sight.next, hquote, hnone]

/-- A text is seen that has no quotation marks and no opening braces. -/
theorem Sight.visible_of_code (hquote : ∀ byte ∈ text, dialect.isQuote byte = false)
    (hbrace : ∀ byte ∈ text, byte ≠ openBrace) :
    Sight.clear.visible dialect text = text.map (·, true) := by
  induction text with
  | nil => rfl
  | cons byte rest ih =>
    obtain ⟨hbyte, hquotes⟩ := forall_mem_cons.mp hquote
    obtain ⟨-, hbraces⟩ := forall_mem_cons.mp hbrace
    have hhead : rest.head? ≠ some openBrace := by
      intro hhead
      exact hbraces _ (mem_of_mem_head? hhead) rfl
    rw [visible_cons hbyte (.inr hhead), ih hquotes hbraces, map_cons]

namespace Declaration

variable {dialect : Dialect}

/-- Code without braces and separators belongs to the entry in progress. -/
theorem entries_append (hbraces : ∀ byte ∈ text, byte ≠ openBrace ∧ byte ≠ closeBrace)
    (hseparators : ∀ byte ∈ text, dialect.isSeparator byte = false)
    (stop offset opened depth : Nat) (rest : List (UInt8 × Bool)) :
    entries dialect stop offset opened depth 0 (text.map (·, true) ++ rest) =
      entries dialect stop (offset + text.length) opened (text.foldl depthNext depth) 0 rest := by
  induction text generalizing offset depth with
  | nil => rfl
  | cons byte text ih =>
    obtain ⟨⟨hopens, -⟩, hlater⟩ := forall_mem_cons.mp hbraces
    obtain ⟨hseparator, hseparators⟩ := forall_mem_cons.mp hseparators
    rw [map_cons, cons_append, entries, if_neg (by simp),
      if_neg (by simpa using hopens), if_pos (by simp), if_neg (by simp [hseparator]),
      ih hlater hseparators, length_cons, foldl_cons, Nat.add_right_comm, Nat.add_assoc]

/-- The colon of an entry stands behind what has no colons, quotation marks, parentheses and
brackets. -/
theorem colon_of_append {front rest : Text}
    (h : ∀ byte ∈ front, dialect.isQuote byte = false ∧ byte ≠ colon ∧
      depthNext 0 byte = 0) :
    colon? dialect .code 0 (front ++ colon :: rest) = some front.length := by
  induction front with
  | nil => cases dialect <;> rfl
  | cons byte front ih =>
    obtain ⟨⟨hquote, hcolon, hdepth⟩, hlater⟩ := forall_mem_cons.mp h
    simp [colon?, hquote, hcolon, hdepth, ih hlater]

end Declaration

/-! ## Texts without blanks at their ends -/

/-- The text begins and ends with characters that are no blanks. -/
structure Text.IsTrimmed (text : Text) : Prop where
  ne : text ≠ []
  first : (chars text).head?.any isBlank = false
  last : (chars text).getLast?.any isBlank = false

theorem Text.isTrimmed_of_hasBlank (hne : text ≠ []) (h : hasBlank text = false) :
    IsTrimmed text := by
  have hblank : ∀ char ∈ chars text, isBlank char = false := by
    simpa [hasBlank] using h
  refine ⟨hne, ?_, ?_⟩
  · cases hhead : (chars text).head? with
    | none => rfl
    | some char => exact hblank char (mem_of_mem_head? hhead)
  · cases hlast : (chars text).getLast? with
    | none => rfl
    | some char => exact hblank char (mem_of_mem_getLast? hlast)

/-- A span is trimmed of the space in front of a text without blanks at its ends. -/
theorem Span.trim_of_space {value : Text} {start stop : Nat}
    (hstop : stop = start + 1 + value.length)
    (hslice : (Span.mk start stop).slice text = space :: value) (h : value.IsTrimmed) :
    (Span.mk start stop).trim text = ⟨start + 1, stop⟩ := by
  have hchars : chars ((Span.mk start stop).slice text) = ' ' :: chars value := by
    rw [hslice]
    exact chars_ascii (by decide) value
  have hfront : (' ' :: chars value).takeWhile isBlank = [' '] := by
    rw [takeWhile_cons_of_pos (by decide)]
    cases hvalue : chars value with
    | nil => rfl
    | cons char rest =>
      have hchar := h.first
      rw [hvalue] at hchar
      rw [takeWhile_cons_of_neg (by simpa using hchar)]
  have hback : (' ' :: chars value).reverse.takeWhile isBlank = [] := by
    rw [reverse_cons]
    cases hvalue : (chars value).reverse with
    | nil =>
      have hnil : chars value = [] := reverse_eq_nil_iff.mp hvalue
      have hlength := byteSize_chars value
      rw [hnil] at hlength
      exact absurd (eq_nil_of_length_eq_zero hlength.symm) h.ne
    | cons char rest =>
      have hchar := h.last
      rw [← head?_reverse, hvalue] at hchar
      rw [cons_append, takeWhile_cons_of_neg (by simpa using hchar)]
  have hpos := length_pos_iff.mpr h.ne
  have hsize : byteSize [' '] = 1 := by decide
  have hnone : byteSize [] = 0 := rfl
  simp only [Span.trim, hchars, hfront, hback, hsize, hnone]
  rw [if_neg (by omega)]
  rfl

/-! ## One declaration -/

namespace Stylesheet

/-- The entry that declares a value, with a space before the name and before the value. -/
def entry (name value : Text) : Text :=
  space :: (name ++ colon :: space :: value)

/-- A stylesheet with one rule, which declares one value. -/
def sole (name value : Text) : Text :=
  utf8 ".a \x7b " ++ name ++ utf8 ": " ++ value ++ utf8 "; \x7d"

/-- A value that is read as it stands: it has no quotation marks, braces, semicolons and comments,
its parentheses and brackets are closed, and no blanks are at its ends. -/
structure IsDeclarable (dialect : Dialect) (value : Text) : Prop where
  quotes : ∀ byte ∈ value, dialect.isQuote byte = false
  braces : ∀ byte ∈ value, byte ≠ openBrace ∧ byte ≠ closeBrace
  semicolons : ∀ byte ∈ value, byte ≠ semicolon
  comments : dialect.comments value = []
  closed : value.foldl depthNext 0 = 0
  trimmed : value.IsTrimmed

variable {dialect : Dialect} {name value : Text} {byte : UInt8}

theorem sole_eq (name value : Text) :
    sole name value = utf8 ".a \x7b" ++ (entry name value ++ utf8 "; \x7d") := by
  have hopening : utf8 ".a \x7b " = utf8 ".a \x7b" ++ [space] := rfl
  have hcolon : utf8 ": " = [colon, space] := rfl
  rw [sole, hopening, hcolon, entry]
  simp only [append_assoc, cons_append, nil_append]

theorem opening_eq : utf8 ".a \x7b" = [46, 97, space, openBrace] :=
  rfl

theorem closing_eq : utf8 "; \x7d" = [semicolon, space, closeBrace] :=
  rfl

/-! ### Names -/

/-- A byte of a name is none that can stand in no name. -/
theorem ne_of_isNameByte {other : UInt8} (h : isNameByte byte)
    (hother : isNameByte other = false) : byte ≠ other := by
  rintro rfl
  rw [h] at hother
  cases hother

theorem isNameByte_of_isName (h : isName dialect name) :
    ∀ byte ∈ name, isNameByte byte := by
  simp only [isName, Bool.and_eq_true, all_eq_true] at h
  exact h.1.2

theorem isQuote_of_isNameByte (h : isNameByte byte) (dialect : Dialect) :
    dialect.isQuote byte = false := by
  have hne : ∀ other, isNameByte other = false → byte ≠ other := fun other => ne_of_isNameByte h
  simp [isQuote, hne doubleQuote (by decide), hne apostrophe (by decide), hne backtick (by decide)]

theorem depthNext_of_isNameByte (h : isNameByte byte) :
    depthNext 0 byte = 0 ∧ Scan.depthNext 0 byte = 0 := by
  have hne : ∀ other, isNameByte other = false → byte ≠ other := fun other => ne_of_isNameByte h
  simp [depthNext, Scan.depthNext, hne openParen (by decide),
    hne closeParen (by decide), hne openBracket (by decide),
    hne closeBracket (by decide)]

theorem isIdle_of_isNameByte (h : isNameByte byte) (dialect : Dialect) :
    Scan.isIdle dialect byte := by
  have hne : ∀ other, isNameByte other = false → byte ≠ other := fun other => ne_of_isNameByte h
  simp [Scan.isIdle, Scan.isPassed, isQuote_of_isNameByte h, hne backslash (by decide),
    hne newline (by decide), hne slash (by decide), (depthNext_of_isNameByte h).2]

theorem isTrimmed_of_isName (h : isName dialect name) : name.IsTrimmed := by
  refine isTrimmed_of_hasBlank ?_ ?_
  · rintro rfl
    cases h
  · have hbytes : ∀ byte ∈ name, byte < 0x80 ∧ isBlank (Char.ofNat byte.toNat) = false := by
      intro byte hmem
      have hbyte := isNameByte_of_isName h byte hmem
      by_cases hunderscore : byte = underscore
      · subst hunderscore
        decide
      · refine Token.char_of_isIdentifierByte ?_
        simpa [isNameByte, Token.isIdentifierByte, hunderscore] using hbyte
    simpa [hasBlank] using Token.isBlank_of_mem_chars hbytes

/-- What holds of spaces, of the colon and of the bytes of name and value holds of the entry. -/
theorem forall_mem_entry {condition : UInt8 → Prop} (hspace : condition space)
    (hcolon : condition colon) (hname : ∀ byte ∈ name, condition byte)
    (hvalue : ∀ byte ∈ value, condition byte) : ∀ byte ∈ entry name value, condition byte := by
  intro byte hmem
  simp only [entry, mem_cons, mem_append] at hmem
  rcases hmem with rfl | hmem | rfl | rfl | hmem
  · exact hspace
  · exact hname byte hmem
  · exact hcolon
  · exact hspace
  · exact hvalue byte hmem

/-- The block of the stylesheet. -/
def soleBlock (name value : Text) : Block :=
  ⟨3, (entry name value).length + 6⟩

theorem length_entry (name value : Text) :
    (entry name value).length = name.length + value.length + 3 := by
  simp only [entry, length_cons, length_append]
  omega

theorem slice_sole {middle : Text} {start stop : Nat} (front rest : Text)
    (hsole : sole name value = front ++ middle ++ rest) (hstart : start = front.length)
    (hstop : stop = front.length + middle.length) :
    (Span.mk start stop).slice (sole name value) = middle := by
  subst hstart hstop
  rw [hsole, ← length_append]
  exact slice_middle front middle rest

/-- The space behind the entry declares nothing. -/
theorem readIn_sole_space (dialect : Dialect) (name value : Text) :
    readIn? dialect (sole name value)
      ⟨(entry name value).length + 5, (entry name value).length + 6⟩ = none := by
  have hslice : (Span.mk ((entry name value).length + 5) ((entry name value).length + 6)).slice
      (sole name value) = [space] := by
    refine slice_sole (utf8 ".a \x7b" ++ entry name value ++ [semicolon]) [closeBrace] ?_ ?_ ?_
    · simp [sole_eq, closing_eq]
    · simp [opening_eq]
    · simp [opening_eq]
  have hcolon : colon? dialect .code 0 [space] = none := by
    cases dialect <;> rfl
  rw [readIn_eq, hslice, hcolon]
  rfl

section Declarable

variable (hdialect : dialect ≠ .script) (hname : isName dialect name)
  (hvalue : IsDeclarable dialect value)
include hname hvalue

theorem braces_of_mem_entry :
    ∀ byte ∈ entry name value, byte ≠ openBrace ∧ byte ≠ closeBrace := by
  refine forall_mem_entry (by decide) (by decide) (fun byte hmem => ?_) hvalue.braces
  have hbyte := isNameByte_of_isName hname byte hmem
  exact ⟨ne_of_isNameByte hbyte (by decide), ne_of_isNameByte hbyte (by decide)⟩

/-- The parentheses and brackets of the entry are closed. -/
theorem depth_entry : (entry name value).foldl depthNext 0 = 0 := by
  have hfront : (space :: name ++ [colon, space]).foldl depthNext 0 = 0 := by
    refine foldl_eq_zero fun byte hmem => ?_
    simp only [cons_append, mem_cons, mem_append, not_mem_nil, or_false] at hmem
    rcases hmem with rfl | hmem | rfl | rfl
    · rfl
    · exact (depthNext_of_isNameByte (isNameByte_of_isName hname byte hmem)).1
    · rfl
    · rfl
  have hentry : entry name value = space :: name ++ [colon, space] ++ value := by
    simp [entry]
  rw [hentry, foldl_append, hfront, hvalue.closed]

/-! ### Readers -/

theorem stripComments_sole : dialect.stripComments (sole name value) = sole name value := by
  have hfront : (utf8 ".a \x7b " ++ name ++ utf8 ": ").all (Scan.isIdle dialect) := by
    have hopening : (utf8 ".a \x7b ").all (Scan.isIdle dialect) := by cases dialect <;> rfl
    have hcolon : (utf8 ": ").all (Scan.isIdle dialect) := by cases dialect <;> rfl
    rw [all_append, all_append, hopening, hcolon, Bool.and_true, Bool.true_and]
    exact all_eq_true.mpr fun byte hmem => isIdle_of_isNameByte
      (isNameByte_of_isName hname byte hmem) dialect
  have hharmless : Scan.isHarmless (utf8 "; \x7d").head? := rfl
  refine stripFrom_of_unmarked ?_
  rw [sole, append_assoc, Scan.marks_append, Scan.marks_append]
  -- what stands before the value leaves the scan where it begins
  obtain ⟨hunmarked, hstart⟩ := Scan.unmarked_of_isIdle hfront (rfl : Scan.start.mode = .code)
    (value ++ utf8 "; \x7d").head?
  obtain ⟨hinner, hafter⟩ := Scan.unmarked_until (rfl : Scan.start.mode = .code) hvalue.quotes
    (Marked.unmarked_of_runs hvalue.comments) hharmless
  rw [hstart rfl]
  refine forall_mem_append.mpr ⟨hunmarked, forall_mem_append.mpr ⟨hinner, ?_⟩⟩
  rw [hafter, ← Scan.marksUntil_none]
  exact Scan.unmarked_of_slash_notMem (by decide) rfl none

theorem visible_sole : dialect.visible (sole name value) = (sole name value).map (·, true) := by
  have hbytes := isNameByte_of_isName hname
  have hquotes : ∀ byte ∈ entry name value ++ utf8 "; \x7d", dialect.isQuote byte = false := by
    refine forall_mem_append.mpr ⟨forall_mem_entry ?_ ?_ ?_ hvalue.quotes, ?_⟩
    · cases dialect <;> rfl
    · cases dialect <;> rfl
    · exact fun byte hmem => isQuote_of_isNameByte (hbytes byte hmem) dialect
    · have hclosing : (utf8 "; \x7d").all (!dialect.isQuote ·) := by cases dialect <;> rfl
      simpa using hclosing
  have hbraces : ∀ byte ∈ entry name value ++ utf8 "; \x7d", byte ≠ openBrace := by
    refine forall_mem_append.mpr
      ⟨fun byte hmem => (braces_of_mem_entry hname hvalue byte hmem).1, ?_⟩
    have hclosing : (utf8 "; \x7d").all (· != openBrace) := rfl
    simpa using hclosing
  have hopening : ∀ byte, byte = 46 ∨ byte = 97 ∨ byte = space ∨ byte = openBrace →
      dialect.isQuote byte = false ∧ byte ≠ hash := by
    rintro byte (rfl | rfl | rfl | rfl) <;> exact ⟨by cases dialect <;> rfl, by decide⟩
  have hstep : ∀ byte rest, byte = 46 ∨ byte = 97 ∨ byte = space ∨ byte = openBrace →
      Sight.clear.visible dialect (byte :: rest) =
        (byte, true) :: Sight.clear.visible dialect rest :=
    fun byte rest hbyte => Sight.visible_cons (hopening byte hbyte).1 (.inl (hopening byte hbyte).2)
  rw [sole_eq, opening_eq, visible]
  simp only [cons_append, nil_append]
  rw [hstep 46 _ (by simp), hstep 97 _ (by simp), hstep space _ (by simp),
    hstep openBrace _ (by simp), Sight.visible_of_code hquotes hbraces]
  rfl

theorem closed_sole :
    Block.closed 0 [] ((sole name value).map (·, true)) = [soleBlock name value] := by
  have hentry : ∀ mark ∈ (entry name value).map (·, true),
      mark.1 ≠ openBrace ∧ mark.1 ≠ closeBrace := by
    intro mark hmark
    obtain ⟨byte, hbyte, rfl⟩ := mem_map.mp hmark
    exact braces_of_mem_entry hname hvalue byte hbyte
  have hrest : ∀ marks : List (UInt8 × Bool),
      Block.closed 0 [] ((46, true) :: (97, true) :: (space, true) ::
        (openBrace, true) :: marks) = Block.closed 4 [3] marks := fun marks => rfl
  rw [sole_eq, opening_eq, closing_eq]
  simp only [map_append, map_cons, map_nil, cons_append, nil_append]
  rw [hrest, Block.closed_append hentry, length_map, Nat.add_comm]
  rfl

include hdialect

theorem readIn_sole :
    readIn? dialect (sole name value) ⟨4, (entry name value).length + 4⟩ =
      some ⟨name, ⟨name.length + 7, name.length + 7 + value.length⟩⟩ := by
  have hlength := length_entry name value
  have hpos := length_pos_iff.mpr hvalue.trimmed.ne
  have hslice : (Span.mk 4 ((entry name value).length + 4)).slice (sole name value) =
      entry name value := by
    refine slice_sole (utf8 ".a \x7b") (utf8 "; \x7d") ?_ ?_ ?_
    · rw [sole_eq, append_assoc]
    · rw [opening_eq]
      rfl
    · rw [opening_eq]
      exact Nat.add_comm ..
  have hcolon : colon? dialect .code 0 (entry name value) = some (name.length + 1) := by
    have hfront : ∀ byte ∈ space :: name, dialect.isQuote byte = false ∧ byte ≠ colon ∧
        depthNext 0 byte = 0 := by
      refine forall_mem_cons.mpr ⟨⟨by cases dialect <;> rfl, by decide, rfl⟩, fun byte hmem => ?_⟩
      have hbyte := isNameByte_of_isName hname byte hmem
      exact ⟨isQuote_of_isNameByte hbyte dialect, ne_of_isNameByte hbyte (by decide),
        (depthNext_of_isNameByte hbyte).1⟩
    exact colon_of_append hfront
  have hkey : (Span.mk 4 (4 + (name.length + 1))).trim (sole name value) =
      ⟨5, 4 + (name.length + 1)⟩ := by
    refine Span.trim_of_space (by omega) (slice_sole (utf8 ".a \x7b")
      (colon :: space :: value ++ utf8 "; \x7d") ?_ ?_ ?_) (isTrimmed_of_isName hname)
    · simp [sole_eq, entry]
    · simp [opening_eq]
    · simp [opening_eq]
  have hkeySlice : (Span.mk 5 (4 + (name.length + 1))).slice (sole name value) = name := by
    refine slice_sole (utf8 ".a \x7b" ++ [space])
      (colon :: space :: value ++ utf8 "; \x7d") ?_ ?_ ?_
    · simp [sole_eq, entry]
    · simp [opening_eq]
    · simp [opening_eq]
      omega
  have hspan : (Span.mk (4 + (name.length + 1) + 1) ((entry name value).length + 4)).trim
      (sole name value) = ⟨4 + (name.length + 1) + 1 + 1, (entry name value).length + 4⟩ := by
    refine Span.trim_of_space (by omega) (slice_sole
      (utf8 ".a \x7b" ++ space :: name ++ [colon]) (utf8 "; \x7d") ?_ ?_ ?_)
      hvalue.trimmed
    · simp [sole_eq, entry]
    · simp [opening_eq]
      omega
    · simp [opening_eq]
      omega
  have hstart : 4 + (name.length + 1) + 1 + 1 = name.length + 7 := by omega
  have hstop : (entry name value).length + 4 = name.length + 7 + value.length := by omega
  refine readIn_eq_some_iff.mpr ⟨name.length + 1, ?_, ?_, hname, ?_, ?_⟩
  · rw [hslice, hcolon]
  · show keyName? dialect (((Span.mk 4 (4 + (name.length + 1))).trim
      (sole name value)).slice (sole name value)) = some name
    rw [hkey, hkeySlice, keyName?, if_neg hdialect]
  · show Span.mk (name.length + 7) (name.length + 7 + value.length) =
      (Span.mk (4 + (name.length + 1) + 1) ((entry name value).length + 4)).trim (sole name value)
    rw [hspan, hstart, hstop]
  · show name.length + 7 < name.length + 7 + value.length
    omega

/-- The entries of the block: the one that declares the value, and the space behind it. -/
theorem entries_sole :
    entries dialect ((entry name value).length + 6) 4 4 0 0
        ((entry name value).map (·, true) ++ [(semicolon, true), (space, true)]) =
      [⟨4, (entry name value).length + 4⟩,
        ⟨(entry name value).length + 5, (entry name value).length + 6⟩] := by
  have hseparators : ∀ byte ∈ entry name value, dialect.isSeparator byte = false := by
    have hseparator : ∀ byte, byte ≠ semicolon → dialect.isSeparator byte = false := by
      intro byte hne
      simp [isSeparator, hne, hdialect]
    refine forall_mem_entry (hseparator _ (by decide)) (hseparator _ (by decide)) ?_ ?_
    · intro byte hmem
      exact hseparator byte (ne_of_isNameByte (isNameByte_of_isName hname byte hmem) (by decide))
    · exact fun byte hmem => hseparator byte (hvalue.semicolons byte hmem)
  have hspace : dialect.isSeparator space = false := by cases dialect <;> rfl
  have hsemicolon : dialect.isSeparator semicolon := by cases dialect <;> rfl
  have hlt : (entry name value).length + 4 + 1 < (entry name value).length + 6 := by omega
  have hopens : (semicolon == openBrace) = false := by decide
  have hopens' : (space == openBrace) = false := by decide
  rw [entries_append (braces_of_mem_entry hname hvalue) hseparators,
    depth_entry hname hvalue, Nat.add_comm 4]
  simp [entries, hspace, hsemicolon, hlt, hopens, hopens']

/-- The block of the stylesheet declares its value and nothing else. -/
theorem scanVisible_sole :
    scanVisible dialect (sole name value) ((sole name value).map (·, true))
        (soleBlock name value).interior =
      [⟨name, ⟨name.length + 7, name.length + 7 + value.length⟩⟩] := by
  have hinner : (((sole name value).map (·, true)).drop 4).take
      ((entry name value).length + 6 - 4) =
      (entry name value).map (·, true) ++ [(semicolon, true), (space, true)] := by
    have hsize : (entry name value).length + 6 - 4 = (entry name value).length + 2 := by omega
    rw [sole_eq, opening_eq, closing_eq, hsize]
    simp only [map_append, map_cons, map_nil, cons_append, nil_append, drop_succ_cons, drop_zero]
    rw [take_append, length_map, Nat.add_sub_cancel_left, take_of_length_le]
    · rfl
    · simp
  show (entries dialect ((entry name value).length + 6) 4 4 0 0
    ((((sole name value).map (·, true)).drop 4).take ((entry name value).length + 6 - 4))).filterMap
      (readIn? dialect (sole name value)) = _
  rw [hinner, entries_sole hdialect hname hvalue]
  simp [readIn_sole hdialect hname hvalue, readIn_sole_space]

end Declarable

theorem length_front (name : Text) :
    (utf8 ".a \x7b " ++ name ++ utf8 ": ").length = name.length + 7 := by
  have hopening : (utf8 ".a \x7b ").length = 5 := rfl
  have hcolon : (utf8 ": ").length = 2 := rfl
  rw [length_append, length_append, hopening, hcolon]
  omega

/-- The target of the stylesheet with a working text. -/
def soleTarget (name value working : Text) : Target :=
  ⟨name, ⟨name.length + 7, name.length + 7 + value.length⟩, value, working, false,
    Value.isList name value⟩

/-- The value stands in the span of the target. -/
theorem slice_soleTarget (name value working : Text) :
    (soleTarget name value working).span.slice (sole name value) = value :=
  slice_sole (utf8 ".a \x7b " ++ name ++ utf8 ": ") (utf8 "; \x7d") rfl
    (length_front name).symm (by rw [length_front])

/-- The value is the only target of the stylesheet. -/
theorem targets_sole {path : Text} (hpath : ofPath path ≠ .script)
    (hname : isName (ofPath path) name)
    (hvalue : IsDeclarable (ofPath path) value) :
    Target.ofRules (sole name value) (Source.rules path (sole name value)) =
      [soleTarget name value value] := by
  have hstrip := stripComments_sole hname hvalue
  have hvisible := visible_sole hname hvalue
  have hslice : (Span.mk (name.length + 7) (name.length + 7 + value.length)).slice
      (sole name value) = value := slice_soleTarget name value value
  have hclosed : Block.closed 0 [] ((ofPath path).visible
      ((ofPath path).stripComments (sole name value))) = [soleBlock name value] := by
    rw [hstrip, hvisible, closed_sole hname hvalue]
  refine (Target.ofRules_of_closed rfl hclosed (pairwise_singleton _ _) ?_
    (pairwise_singleton _ _)).2
  rw [hstrip, hvisible, flatMap_singleton, Source.declaredIn_stylesheet hpath,
    scanVisible_sole hpath hname hvalue]
  simp only [map_cons, map_nil, Declared.target, hslice, DeclaredValue.isNumber, soleTarget]

theorem apply_sole (name value working : Text) :
    Target.apply [soleTarget name value working] (sole name value) = sole name working := by
  have hstop : name.length + 7 + value.length ≤ (sole name value).length := by
    rw [sole, length_append, length_append, length_front]
    omega
  have hordered : Span.Ordered (sole name value).length 0
      ([soleTarget name value working].map Target.span) :=
    ⟨Nat.zero_le _, Nat.le_add_right _ _, hstop⟩
  have hfront : (Span.mk 0 (name.length + 7)).slice (sole name value) =
      utf8 ".a \x7b " ++ name ++ utf8 ": " := by
    refine slice_sole [] (value ++ utf8 "; \x7d") ?_ rfl ?_
    · simp [sole]
    · rw [length_front, length_nil, Nat.zero_add]
  have hback : (sole name value).drop (name.length + 7 + value.length) = utf8 "; \x7d" := by
    rw [← length_front, ← length_append]
    exact drop_left
  have hsource : ∀ target ∈ [soleTarget name value working], target.isNumber = false →
      target.initial = target.span.slice (sole name value) := by
    intro target hmem _
    obtain rfl := mem_singleton.mp hmem
    exact (slice_soleTarget ..).symm
  rw [Target.apply_eq_fill hordered hsource]
  show (Span.mk 0 (name.length + 7)).slice (sole name value) ++ working ++
    (sole name value).drop (name.length + 7 + value.length) = sole name working
  rw [hfront, hback, sole]

end Stylesheet

end Restyle
