import Restyle.Proofs.Dialect.Marks
import Restyle.Proofs.Value.Parts

/-!
# The layout of a value

A value is laid out in cells: a gap of spaces and comments, and the part behind it. `Value.Laid`
says so of the cells and the tail behind them, and it says that the scan of the value stands as at
its start around every part. The parts that the division finds are those of the cells
(`Value.codeParts_join`), and every value whose literals hold no backslash and no line feed is laid
out: `Value.exists_laid`.
-/

namespace Restyle

open Byte Dialect Enclosure List Scan

namespace Dialect

variable (dialect : Dialect) (scan : Scan) (ahead : Option UInt8) (text : Text)

/-- The text read from a state of the scan, with a byte behind it, its comments blanked. -/
def stripUntil : Text :=
  veil text (scan.commentsUntil dialect ahead text)

theorem stripUntil_cons (byte : UInt8) (rest : Text) :
    dialect.stripUntil scan ahead (byte :: rest) =
      scan.shown dialect byte (rest.head?.or ahead) ::
        dialect.stripUntil (scan.next dialect byte (rest.head?.or ahead)) ahead rest :=
  rfl

@[simp]
theorem length_stripUntil : (dialect.stripUntil scan ahead text).length = text.length := by
  rw [stripUntil, veil, length_zipWith, length_commentsUntil, Nat.min_self]

theorem stripUntil_eq_map :
    dialect.stripUntil scan ahead text = (scan.marksUntil dialect ahead text).map
      fun mark => if mark.2 then blankByte mark.1 else mark.1 := by
  rw [stripUntil, marksUntil, map_zip_eq_zipWith]
  rfl

theorem stripUntil_none : dialect.stripUntil scan none text = dialect.stripFrom scan text := by
  rw [stripUntil_eq_map, marksUntil_none, stripFrom_eq_map]

variable {dialect scan ahead text}

/-- A text that leads out of comments is blanked in the same way whatever harmless byte follows. -/
theorem stripUntil_of_isHarmless {ahead' : Option UInt8}
    (h : (scan.run dialect ahead text).isOutside) (hahead : isHarmless ahead') :
    dialect.stripUntil scan ahead' text = dialect.stripUntil scan ahead text := by
  rw [stripUntil_eq_map, stripUntil_eq_map, (run_of_isHarmless h hahead).2]

end Dialect

/-! ## The scan without escapes -/

namespace Scan

variable {dialect : Dialect} {scan : Scan}

/-- The quotation mark of the open literal. -/
def openQuote (scan : Scan) : Option UInt8 :=
  match scan.mode with
  | .literal quote => some quote
  | _ => none

/-- Whether a byte in a literal neither escapes anything nor ends the line. -/
def isKept (scan : Scan) (byte : UInt8) : Bool :=
  scan.openQuote.isNone || (byte != backslash && byte != newline)

/-- Whether the literals of a text, read from a state, hold no backslashes and no line feeds. -/
def hasPlainLiterals (dialect : Dialect) (scan : Scan) : Text → Bool
  | [] => true
  | byte :: rest =>
    scan.isKept byte && hasPlainLiterals dialect (scan.next dialect byte rest.head?) rest

/-- What is open where the comment scan stands. -/
def enclosure (scan : Scan) : Enclosure :=
  ⟨scan.depth, scan.openQuote⟩

/-- Where the scan stands after a byte of code that opens no comment. -/
def afterCode (dialect : Dialect) (depth : Nat) (byte : UInt8) : Scan :=
  ⟨if dialect.isQuote byte then .literal byte else .code, depthNext depth byte⟩

/-- What one byte does to the scan: it goes on in a literal or closes it, it belongs to a comment,
it ends a line comment, or it is code. -/
theorem next_cases (byte : UInt8) (ahead : Option UInt8)
    (hescape : ∀ quote, scan.mode ≠ .escape quote) (hkept : scan.isKept byte) :
    (∃ quote, scan.openQuote = some quote ∧ inComment scan (scan.next dialect byte ahead) = false ∧
      scan.next dialect byte ahead =
        ⟨if byte == quote then .code else .literal quote, scan.depth⟩) ∨
    (scan.openQuote = none ∧ inComment scan (scan.next dialect byte ahead) ∧
      (scan.next dialect byte ahead).openQuote = none ∧
      (scan.next dialect byte ahead).depth = scan.depth ∧
      ∀ quote, (scan.next dialect byte ahead).mode ≠ .escape quote) ∨
    (scan.openQuote = none ∧ inComment scan (scan.next dialect byte ahead) = false ∧
      byte = newline ∧ scan.next dialect byte ahead = ⟨.code, scan.depth⟩) ∨
    (scan.mode = .code ∧ inComment scan (scan.next dialect byte ahead) = false ∧
      scan.next dialect byte ahead = afterCode dialect scan.depth byte) := by
  obtain ⟨mode, depth⟩ := scan
  cases mode with
  | code =>
    cases hmark : inComment ⟨.code, depth⟩ (Scan.next dialect ⟨.code, depth⟩ byte ahead) with
    | true =>
      have hdepth := depth_of_inComment hmark
      simp only [inComment, Bool.or_eq_true, beq_iff_eq] at hmark
      refine .inr (.inl ⟨rfl, rfl, ?_, hdepth, ?_⟩) <;> rcases hmark with h | h <;>
        simp [h, openQuote]
    | false =>
      exact .inr (.inr (.inr ⟨rfl, rfl, by simp only [Scan.next, codeNext_of_unmarked hmark,
        afterCode]⟩))
  | literal quote =>
    have hbyte : byte ≠ backslash ∧ byte ≠ newline := by
      simpa [isKept, openQuote] using hkept
    refine .inl ⟨quote, rfl, rfl, ?_⟩
    simp [Scan.next, literalNext, hbyte]
  | escape quote => exact absurd rfl (hescape quote)
  | commentOpening | commentClosing =>
    refine .inr (.inl ⟨rfl, rfl, rfl, rfl, ?_⟩)
    simp [Scan.next]
  | comment =>
    refine .inr (.inl ⟨rfl, rfl, ?_⟩)
    simp only [Scan.next]
    split <;> exact ⟨rfl, rfl, by simp⟩
  | lineComment =>
    simp only [Scan.next]
    split
    next hnewline => exact .inr (.inr (.inl ⟨rfl, rfl, by simpa using hnewline, rfl⟩))
    · exact .inr (.inl ⟨rfl, rfl, rfl, rfl, by simp⟩)

/-- Without backslashes in literals nothing is escaped. -/
theorem next_ne_escape {byte : UInt8} {ahead : Option UInt8}
    (hescape : ∀ quote, scan.mode ≠ .escape quote) (hkept : scan.isKept byte)
    (quote : UInt8) : (scan.next dialect byte ahead).mode ≠ .escape quote := by
  rcases @next_cases dialect scan byte ahead hescape hkept with ⟨quote', -, -, hnext⟩ |
    ⟨-, -, -, -, hnext⟩ | ⟨-, -, -, hnext⟩ | ⟨-, -, hnext⟩
  · rw [hnext]
    simp only
    split <;> simp
  · exact hnext quote
  · simp [hnext]
  · rw [hnext, afterCode]
    simp only
    split <;> simp

end Scan

/-! ## Parts that stand by themselves -/

namespace Enclosure

/-- The text is one part in front of the rest: it begins as a part, nothing in it divides the value,
and a space follows that does, or nothing. -/
structure Stands (part rest : Text) : Prop where
  begins : part.head?.any (! isFiller ·)
  holds : outside.holds part
  ends : rest = [] ∨ outside.after part = outside ∧ rest.head?.any isSpace

variable {part rest : Text}

theorem Stands.isSpace_head (h : Stands part rest) : rest.head?.all isSpace := by
  rcases h.ends with rfl | ⟨-, hspace⟩
  · rfl
  · cases rest with
    | nil => rfl
    | cons space rest => exact hspace

/-- A part that stands by itself does not begin with a space. -/
theorem Stands.not_isSpace_head (h : Stands part rest) (behind : Text) :
    ¬ (part ++ behind).head?.all isSpace := by
  intro hspace
  cases part with
  | nil => cases h.begins
  | cons first part =>
    have hfiller : isFiller first = false := by simpa using h.begins
    rw [isFiller, show isSpace first from hspace] at hfiller
    cases hfiller

/-- A part that stands by itself is found as a whole. -/
theorem Stands.partsFrom_eq (h : Stands part rest) (offset : Nat) :
    outside.partsFrom offset none (part ++ rest) =
      ⟨offset, offset + part.length⟩ ::
        outside.partsFrom (offset + part.length) none rest := by
  obtain ⟨hbegins, hholds, hends⟩ := h
  cases part with
  | nil => cases hbegins
  | cons first more =>
    obtain ⟨hfirst, hmore⟩ := Bool.and_eq_true_iff.mp hholds
    have hclose : (first == closeParen) = false := by
      have hfiller : isFiller first = false := by simpa using hbegins
      exact (Bool.or_eq_false_iff.mp hfiller).2
    have hbegin : outside.begin offset none first = some offset := by
      rw [begin, hclose]
      rfl
    rw [cons_append, partsFrom_cons, if_neg (by simpa using hfirst), hbegin,
      partsFrom_of_holds hmore, length_cons, ← Nat.add_right_comm, Nat.add_assoc]
    rcases hends with rfl | ⟨hafter, hspace⟩
    · rfl
    · cases rest with
      | nil => rfl
      | cons space rest =>
        have hdivides : outside.divides space := by
          simpa [divides] using hspace
        have hafter : (outside.next first).after more = outside := hafter
        rw [hafter, partsFrom_cons, partsFrom_cons, if_pos hdivides, if_pos hdivides]
        rfl

theorem exists_holds_append (enclosure : Enclosure) (text : Text) :
    ∃ left right, text = left ++ right ∧ enclosure.holds left ∧
      (right = [] ∨ ∃ byte ∈ right.head?, (enclosure.after left).divides byte) := by
  induction text generalizing enclosure with
  | nil => exact ⟨[], [], rfl, rfl, .inl rfl⟩
  | cons byte rest ih =>
    cases hdivides : enclosure.divides byte with
    | true => exact ⟨[], byte :: rest, rfl, rfl, .inr ⟨byte, rfl, hdivides⟩⟩
    | false =>
      obtain ⟨left, right, rfl, hholds, hends⟩ := ih (enclosure.next byte)
      exact ⟨byte :: left, right, rfl, by rw [holds, hdivides, hholds]; rfl, hends⟩

end Enclosure

/-! ## The scan and the division side by side -/

namespace Scan

variable {dialect : Dialect} {scan : Scan}

/-- In code the scan and the division have the same open. -/
theorem enclosure_afterCode (hdialect : dialect ≠ .script) (depth : Nat)
    (byte : UInt8) :
    (Enclosure.mk depth none).next byte = (afterCode dialect depth byte).enclosure := by
  unfold Enclosure.next afterCode
  rw [isQuote_eq hdialect]
  cases byte == doubleQuote || byte == apostrophe <;> rfl

/-- A space or a line feed leaves open what is open outside quotation marks. -/
theorem enclosure_next_blank {byte : UInt8} (hbyte : byte = space ∨ byte = newline)
    (depth : Nat) : (Enclosure.mk depth none).next byte = ⟨depth, none⟩ := by
  rcases hbyte with rfl | rfl <;> rfl

variable {ahead : Option UInt8} {right left : Text}

/-- The division has open behind a byte what the scan has open there. -/
theorem enclosure_next (hdialect : dialect ≠ .script) {byte : UInt8}
    (hescape : ∀ quote, scan.mode ≠ .escape quote) (hkept : scan.isKept byte) :
    scan.enclosure.next (scan.shown dialect byte ahead) =
      (scan.next dialect byte ahead).enclosure := by
  rcases @next_cases dialect scan byte ahead hescape hkept with ⟨quote, hopen, hmark, hnext⟩ |
    ⟨hquote, hmark, hquote', hdepth', -⟩ | ⟨hquote, hmark, rfl, hnext⟩ | ⟨hmode, hmark, hnext⟩
  · rw [shown, if_neg (by simp [hmark]), hnext, enclosure, hopen]
    show Enclosure.mk scan.depth (if byte == quote then none else some quote) = _
    cases byte == quote <;> rfl
  · rw [enclosure, hquote, enclosure_next_blank (shown_of_inComment hmark), enclosure, hquote',
      hdepth']
  · rw [shown, if_neg (by simp [hmark]), hnext, enclosure, hquote, enclosure_next_blank (.inr rfl)]
    rfl
  · have hquote : scan.openQuote = none := by rw [openQuote, hmode]
    rw [shown, if_neg (by simp [hmark]), hnext, enclosure, hquote, enclosure_afterCode hdialect]

theorem openQuote_of_inComment {after : Scan} (h : inComment scan after) :
    scan.openQuote = none := by
  obtain ⟨mode, depth⟩ := scan
  cases mode with
  | literal => cases h
  | _ => rfl

/-- Every byte of a comment in the text, read from a state, stands in parentheses. -/
def Deep (dialect : Dialect) (scan : Scan) (ahead : Option UInt8) : Text → Prop
  | [] => True
  | byte :: rest =>
    (inComment scan (scan.next dialect byte (rest.head?.or ahead)) → 0 < scan.depth) ∧
      Deep dialect (scan.next dialect byte (rest.head?.or ahead)) ahead rest

/-- The comments of a text that does not divide the value stand in parentheses: outside them a
comment would divide it. -/
theorem deep_of_holds (hdialect : dialect ≠ .script)
    (hescape : ∀ quote, scan.mode ≠ .escape quote)
    (hplain : scan.hasPlainLiterals dialect (left ++ right))
    (hholds : scan.enclosure.holds (dialect.stripUntil scan right.head? left)) :
    scan.Deep dialect right.head? left := by
  induction left generalizing scan with
  | nil => trivial
  | cons byte left ih =>
    rw [cons_append, hasPlainLiterals, Bool.and_eq_true, head?_append] at hplain
    obtain ⟨hkept, hplain⟩ := hplain
    rw [stripUntil_cons, holds, Bool.and_eq_true,
      enclosure_next hdialect hescape hkept] at hholds
    obtain ⟨hbyte, hholds⟩ := hholds
    refine ⟨fun hmark => ?_, ih (next_ne_escape hescape hkept) hplain hholds⟩
    refine Nat.pos_of_ne_zero fun hdepth => ?_
    have houtside : scan.enclosure = outside := by
      rw [enclosure, openQuote_of_inComment hmark, hdepth]
      rfl
    rw [houtside] at hbyte
    rcases shown_of_inComment hmark with hshown | hshown <;> rw [hshown] at hbyte <;> cases hbyte

/-- A text with its comments in parentheses ends in none of them, if none are open behind it. -/
theorem Deep.endsMarked {text : Text} (h : scan.Deep dialect ahead text)
    (hdepth : (scan.run dialect ahead text).depth = 0) :
    (scan.marksUntil dialect ahead text).endsMarked = false := by
  induction text generalizing scan with
  | nil => rfl
  | cons byte rest ih =>
    obtain ⟨hbyte, hrest⟩ := h
    have hlater := ih hrest hdepth
    rw [marksUntil_cons]
    cases rest with
    | nil =>
      rw [Bool.eq_false_iff]
      intro hmark
      replace hmark : inComment scan (scan.next ..) := hmark
      have hpositive := hbyte hmark
      rw [← depth_of_inComment hmark] at hpositive
      exact absurd hdepth (Nat.ne_of_gt hpositive)
    | cons next rest =>
      rw [marksUntil_cons] at hlater ⊢
      rwa [Marked.endsMarked, getLast?_cons_cons]

/-- The division has open behind a text what the scan has open there. -/
theorem enclosure_run (hdialect : dialect ≠ .script)
    (hescape : ∀ quote, scan.mode ≠ .escape quote)
    (hplain : scan.hasPlainLiterals dialect (left ++ right)) :
    scan.enclosure.after (dialect.stripUntil scan right.head? left) =
        (scan.run dialect right.head? left).enclosure ∧
      (∀ quote, (scan.run dialect right.head? left).mode ≠ .escape quote) ∧
      (scan.run dialect right.head? left).hasPlainLiterals dialect right := by
  induction left generalizing scan with
  | nil => exact ⟨rfl, hescape, hplain⟩
  | cons byte left ih =>
    rw [cons_append, hasPlainLiterals, Bool.and_eq_true, head?_append] at hplain
    obtain ⟨hkept, hplain⟩ := hplain
    rw [stripUntil_cons, run, Enclosure.after, foldl_cons, enclosure_next hdialect hescape hkept]
    exact ih (next_ne_escape hescape hkept) hplain

theorem eq_start (h : scan.enclosure = outside) (houtside : scan.isOutside)
    (hescape : ∀ quote, scan.mode ≠ .escape quote) : scan = start := by
  obtain ⟨mode, depth⟩ := scan
  obtain ⟨rfl, hquote⟩ := Enclosure.mk.inj h
  cases mode with
  | code => rfl
  | literal => cases hquote
  | escape quote => exact absurd rfl (hescape quote)
  | commentOpening | comment | commentClosing | lineComment => cases houtside

/-- In a comment nothing but spaces and line feeds is shown. -/
theorem isFiller_shown (h : scan.isOutside = false) (byte : UInt8) (ahead : Option UInt8) :
    isFiller (scan.shown dialect byte ahead) := by
  cases hmark : inComment scan (scan.next ..) with
  | true => rcases shown_of_inComment hmark with hshown | hshown <;> rw [hshown] <;> rfl
  | false =>
    rw [shown, hmark, newline_of_unmarked h hmark]
    rfl

/-- The scan stands as at its start behind a text that does not divide the value, if nothing is open
there. -/
theorem run_eq_start (hdialect : dialect ≠ .script) (hne : left ≠ [])
    (hescape : ∀ quote, scan.mode ≠ .escape quote)
    (hplain : scan.hasPlainLiterals dialect (left ++ right))
    (hholds : scan.enclosure.holds (dialect.stripUntil scan right.head? left))
    (hafter : scan.enclosure.after (dialect.stripUntil scan right.head? left) = outside) :
    scan.run dialect right.head? left = start := by
  obtain ⟨hrun, hescape', -⟩ := enclosure_run hdialect hescape hplain
  rw [hafter] at hrun
  have hends := (deep_of_holds hdialect hescape hplain hholds).endsMarked
    (congrArg Enclosure.depth hrun).symm
  exact eq_start hrun.symm (isOutside_run hne hends) hescape'

/-- The literals of a text without quotation marks hold no backslash and no line feed. -/
theorem hasPlainLiterals_of_unquoted (hdialect : dialect ≠ .script)
    {text : Text} (hescape : ∀ quote, scan.mode ≠ .escape quote)
    (hopen : scan.openQuote = none)
    (h : ∀ byte ∈ text, byte ≠ doubleQuote ∧ byte ≠ apostrophe) :
    scan.hasPlainLiterals dialect text := by
  induction text generalizing scan with
  | nil => rfl
  | cons byte rest ih =>
    obtain ⟨hbyte, hrest⟩ := forall_mem_cons.mp h
    have hkept : scan.isKept byte := by simp [isKept, hopen]
    have hopen' : (scan.next dialect byte rest.head?).openQuote = none := by
      rcases @next_cases dialect scan byte rest.head? hescape hkept with ⟨quote, hquote, -⟩ |
        ⟨-, -, hquote, -⟩ | ⟨-, -, -, hnext⟩ | ⟨-, -, hnext⟩
      · rw [hopen] at hquote
        cases hquote
      · exact hquote
      · rw [hnext]
        rfl
      · rw [hnext, afterCode, isQuote_eq hdialect, if_neg (by simpa using hbyte)]
        rfl
    rw [hasPlainLiterals, hkept, Bool.true_and]
    exact ih (next_ne_escape hescape hkept) hopen' hrest

end Scan

/-! ## Cells -/

namespace Value

open Enclosure (outside isFiller)

/-- A part of a value with the gap in front of it. -/
structure Cell where
  gap : Text
  part : Text
  deriving DecidableEq, Repr

/-- The text of cells with a tail behind them. -/
def join (tail : Text) : List Cell → Text
  | [] => tail
  | cell :: later => cell.gap ++ (cell.part ++ join tail later)

/-- Where the parts of cells stand that begin at an offset. -/
def places (offset : Nat) : List Cell → List Span
  | [] => []
  | cell :: later =>
    ⟨offset + cell.gap.length, offset + cell.gap.length + cell.part.length⟩ ::
      places (offset + cell.gap.length + cell.part.length) later

/-- The text is a gap in front of a byte: spaces, comments and closing parentheses that were not
opened, behind which the scan stands as at its start. -/
structure IsGap (dialect : Dialect) (ahead : Option UInt8) (gap : Text) : Prop where
  filler : (dialect.stripUntil start ahead gap).all isFiller
  run : start.run dialect ahead gap = start

/-- The text is a whole part in front of the rest, and the scan stands behind it as at its start,
unless nothing is left. -/
structure IsWhole (dialect : Dialect) (part rest : Text) : Prop where
  stands : Enclosure.Stands (dialect.stripUntil start rest.head? part)
    (dialect.stripComments rest)
  run : rest = [] ∨ start.run dialect rest.head? part = start

/-- A value is laid out in cells with a tail behind them. -/
inductive Laid (dialect : Dialect) (tail : Text) : List Cell → Prop where
  | nil : (dialect.stripComments tail).all isFiller → Laid dialect tail []
  | cons {cell : Cell} {later : List Cell} :
      IsGap dialect (cell.part ++ join tail later).head? cell.gap →
      IsWhole dialect cell.part (join tail later) → Laid dialect tail later →
      Laid dialect tail (cell :: later)

variable {dialect : Dialect} {tail : Text} {cells : List Cell}

variable {rest part : Text}

theorem IsGap.stripComments_append {gap : Text} (h : IsGap dialect rest.head? gap) :
    dialect.stripComments (gap ++ rest) =
      dialect.stripUntil start rest.head? gap ++ dialect.stripComments rest := by
  rw [stripComments, stripFrom_append, h.run]
  rfl

theorem IsWhole.stripComments_append (h : IsWhole dialect part rest) :
    dialect.stripComments (part ++ rest) =
      dialect.stripUntil start rest.head? part ++ dialect.stripComments rest := by
  rw [stripComments, stripFrom_append]
  rcases h.run with rfl | hrun
  · rfl
  · rw [hrun]
    rfl

theorem IsWhole.stripComments_eq (h : IsWhole dialect part rest) :
    dialect.stripComments part = dialect.stripUntil start rest.head? part := by
  rw [stripComments, ← stripUntil_none]
  rcases h.run with rfl | hrun
  · rfl
  · exact stripUntil_of_isHarmless (by rw [hrun]; rfl) rfl

/-- The division finds the parts of the cells. -/
theorem Laid.partsFrom_eq (h : Laid dialect tail cells) (offset : Nat) :
    outside.partsFrom offset none (dialect.stripComments (join tail cells)) =
      places offset cells := by
  induction h generalizing offset with
  | nil hfiller =>
    have hparts := partsFrom_of_isFiller hfiller offset []
    rw [append_nil] at hparts
    exact hparts
  | cons hgap hpart _ ih =>
    rw [join, hgap.stripComments_append, hpart.stripComments_append,
      partsFrom_of_isFiller hgap.filler, hpart.stands.partsFrom_eq, ih]
    simp only [length_stripUntil, places]

theorem Laid.codeParts_join (h : Laid dialect tail cells) :
    codeParts dialect (join tail cells) = places 0 cells :=
  h.partsFrom_eq 0

theorem map_slice_places (left tail : Text) (cells : List Cell) :
    (places left.length cells).map (fun span => span.slice (left ++ join tail cells)) =
      cells.map Cell.part := by
  induction cells generalizing left with
  | nil => rfl
  | cons cell later ih =>
    have hlater := ih (left ++ (cell.gap ++ cell.part))
    simp only [length_append, append_assoc, ← Nat.add_assoc] at hlater
    rw [places, join, map_cons, map_cons, hlater, Span.slice, ← append_assoc,
      ← length_append, drop_left, Nat.add_sub_cancel_left, take_left]

theorem IsWhole.ne_nil (h : IsWhole dialect part rest) : part ≠ [] := by
  rintro rfl
  cases h.stands.begins

/-- Where a cell stands, the scan stands as at its start in front of a whole part. -/
theorem Laid.isWhole_of_mem (h : Laid dialect tail cells) {left : Text} {span : Span}
    (hleft : start.run dialect (join tail cells).head? left = start)
    (hspan : span ∈ places left.length cells) :
    ∃ front part rest, left ++ join tail cells = front ++ (part ++ rest) ∧
      span = ⟨front.length, front.length + part.length⟩ ∧
      start.run dialect (part ++ rest).head? front = start ∧
      IsWhole dialect part rest := by
  induction h generalizing left with
  | nil => cases hspan
  | @cons cell later hgap hpart hlaid ih =>
    have hfront : start.run dialect (cell.part ++ join tail later).head?
        (left ++ cell.gap) = start := by
      rw [join, head?_append] at hleft
      rw [run_append, hleft, hgap.run]
    rw [join, ← append_assoc]
    rcases mem_cons.mp hspan with rfl | hlater
    · exact ⟨left ++ cell.gap, cell.part, join tail later, rfl, by rw [length_append], hfront,
        hpart⟩
    · -- Nothing is laid out behind a part at the end of the value.
      have hbehind : start.run dialect (join tail later).head? cell.part = start := by
        refine hpart.run.resolve_left fun hnil => ?_
        cases hlaid with
        | nil => cases hlater
        | cons _ hpart' _ =>
          simp only [join, append_eq_nil_iff] at hnil
          exact hpart'.ne_nil hnil.2.1
      rw [← append_assoc]
      refine ih ?_ (by simpa [length_append, Nat.add_assoc] using hlater)
      rw [run_append, ← head?_append, hfront, hbehind]

/-! ## Every value is laid out -/

/-- A text is divided where its copy without comments is. -/
theorem exists_append_of_stripFrom {scan : Scan} {text shown hidden : Text}
    (h : dialect.stripFrom scan text = shown ++ hidden) :
    ∃ left right, text = left ++ right ∧ dialect.stripUntil scan right.head? left = shown ∧
      dialect.stripFrom (scan.run dialect right.head? left) right = hidden := by
  have hlength := congrArg length h
  rw [length_stripFrom, length_append] at hlength
  refine ⟨text.take shown.length, text.drop shown.length, (take_append_drop ..).symm, ?_⟩
  rw [← take_append_drop shown.length text, stripFrom_append] at h
  refine append_inj h ?_
  have htake : (dialect.stripUntil scan (text.drop shown.length).head?
      (text.take shown.length)).length = shown.length := by
    rw [length_stripUntil, length_take]
    omega
  exact htake

theorem start_ne_escape (quote : UInt8) : start.mode ≠ .escape quote := by
  rintro ⟨⟩

/-- A value is a gap only, or a gap in front of a part. -/
theorem exists_gap (hdialect : dialect ≠ .script) {value : Text}
    (hplain : start.hasPlainLiterals dialect value) :
    (dialect.stripComments value).all isFiller ∨
      ∃ gap rest, value = gap ++ rest ∧ IsGap dialect rest.head? gap ∧
        (dialect.stripComments rest).head?.any (! isFiller ·) ∧
        start.hasPlainLiterals dialect rest := by
  have hsplit : dialect.stripFrom start value =
      (dialect.stripComments value).takeWhile isFiller ++
        (dialect.stripComments value).dropWhile isFiller :=
    takeWhile_append_dropWhile.symm
  have hfiller : ((dialect.stripComments value).takeWhile isFiller).all isFiller := all_takeWhile
  cases hdrop : (dialect.stripComments value).dropWhile isFiller with
  | nil =>
    left
    rw [hdrop, append_nil] at hsplit
    rw [stripComments, hsplit]
    exact hfiller
  | cons first more =>
    right
    have hfirst : isFiller first = false := by
      have hstop := head?_dropWhile_not isFiller (dialect.stripComments value)
      simpa [hdrop] using hstop
    obtain ⟨gap, rest, hvalue, hgap, hrest⟩ := exists_append_of_stripFrom hsplit
    rw [← hgap] at hfiller
    obtain ⟨henclosure, hescape, hplain'⟩ := enclosure_run hdialect start_ne_escape
      (hvalue ▸ hplain)
    rw [show start.enclosure = outside from rfl, after_of_isFiller hfiller]
      at henclosure
    -- The part begins with a byte that is no blank, so no comment is open there.
    have houtside : (start.run dialect rest.head? gap).isOutside := by
      rw [hdrop] at hrest
      cases rest with
      | nil => cases hrest
      | cons byte rest =>
        rw [stripFrom_cons] at hrest
        rw [← Bool.not_eq_false]
        intro hinside
        have hblank := @Scan.isFiller_shown dialect _ hinside byte rest.head?
        rw [shown, (cons.inj hrest).1, hfirst] at hblank
        cases hblank
    have hrun := eq_start henclosure.symm houtside hescape
    rw [hrun] at hrest hplain'
    refine ⟨gap, rest, hvalue, ⟨hfiller, hrun⟩, ?_, hplain'⟩
    rw [stripComments, hrest, hdrop]
    simp [hfirst]

/-- A text that begins as a part begins with a whole part. -/
theorem exists_whole (hdialect : dialect ≠ .script) {value : Text}
    (hplain : start.hasPlainLiterals dialect value)
    (hbegins : (dialect.stripComments value).head?.any (! isFiller ·)) :
    ∃ part rest, value = part ++ rest ∧ part ≠ [] ∧ IsWhole dialect part rest ∧
      start.hasPlainLiterals dialect rest := by
  obtain ⟨shown, hidden, hsplit, hholds, hends⟩ := exists_holds_append outside
    (dialect.stripComments value)
  obtain ⟨part, rest, rfl, rfl, hrest⟩ := exists_append_of_stripFrom hsplit
  have hne : part ≠ [] := by
    rintro rfl
    rw [hsplit] at hbegins
    rcases hends with rfl | ⟨space, hhead, hdivides⟩
    · cases hbegins
    · have hspace := (Bool.and_eq_true_iff.mp hdivides).2
      rw [stripUntil, veil, zipWith_nil_left, nil_append,
        Option.mem_def.mp hhead] at hbegins
      simp [isFiller, hspace] at hbegins
  have hbegins' : (dialect.stripUntil start rest.head? part).head?.any (! isFiller ·) =
      true := by
    obtain ⟨first, more, rfl⟩ := exists_cons_of_ne_nil hne
    rwa [hsplit] at hbegins
  rcases hends with rfl | ⟨space, hhead, hdivides⟩
  · have hnil : rest = [] := by
      have hlength := congrArg length hrest
      rw [length_stripFrom] at hlength
      exact length_eq_zero_iff.mp hlength
    subst hnil
    exact ⟨part, [], rfl, hne, ⟨⟨hbegins', hholds, .inl rfl⟩, .inl rfl⟩, rfl⟩
  · rw [divides, Bool.and_eq_true, beq_iff_eq] at hdivides
    have hrun := run_eq_start hdialect hne start_ne_escape hplain hholds hdivides.1
    have hplain' := (enclosure_run hdialect start_ne_escape hplain).2.2
    rw [hrun] at hrest hplain'
    refine ⟨part, rest, rfl, hne, ⟨⟨hbegins', hholds, .inr ⟨hdivides.1, ?_⟩⟩, .inr hrun⟩, hplain'⟩
    rw [stripComments, hrest, Option.mem_def.mp hhead]
    exact hdivides.2

/-- A value whose literals hold no backslash and no line feed is laid out in cells. -/
theorem exists_laid (hdialect : dialect ≠ .script) (value : Text)
    (hplain : start.hasPlainLiterals dialect value) :
    ∃ tail cells, value = join tail cells ∧ Laid dialect tail cells := by
  induction hlength : value.length using Nat.strongRecOn generalizing value with
  | _ length ih =>
    rcases exists_gap hdialect hplain with hfiller | ⟨gap, front, rfl, hgap, hbegins, hplain⟩
    · exact ⟨value, [], rfl, .nil hfiller⟩
    · obtain ⟨part, rest, rfl, hne, hpart, hplain⟩ := exists_whole hdialect hplain hbegins
      have hshorter : rest.length < length := by
        have hpositive := length_pos_iff.mpr hne
        rw [length_append, length_append] at hlength
        omega
      obtain ⟨tail, cells, rfl, hlaid⟩ := ih rest.length hshorter rest hplain rfl
      exact ⟨tail, ⟨gap, part⟩ :: cells, rfl, .cons hgap hpart hlaid⟩

end Value

end Restyle
