import Restyle.Dialect.Comments
import Restyle.Proofs.Token.Occurrences

/-!
# Comments around words

The comment scan of a text goes over its parts one after the other, given the first byte of the
second part (`Scan.comments_append`). A word of letters, digits and hyphens moves the scan nowhere:
where the scan stands behind a word does not depend on the word (`Scan.Settled.run_word`), and the
word is in a comment as a whole or not at all. `Dialect.stripComments_word` puts this together:
blanking the comments of a text does the same to what stands around a word, whichever word it is.
-/

namespace Restyle

open Byte Dialect List Scan Token

variable {byte : UInt8} {dialect : Dialect}

/-- A byte that identifiers are made of differs from one that they are not made of. -/
theorem Token.beq_eq_false {other : UInt8} (hbyte : isIdentifierByte byte)
    (hother : isIdentifierByte other = false) : (byte == other) = false := by
  rw [beq_eq_false_iff_ne]
  rintro rfl
  rw [hbyte] at hother
  cases hother

theorem Dialect.isQuote_eq (hdialect : dialect ≠ .script) (byte : UInt8) :
    dialect.isQuote byte = (byte == doubleQuote || byte == apostrophe) := by
  cases dialect with
  | css | scss => simp [isQuote]
  | script => exact absurd rfl hdialect

theorem Dialect.isQuote_eq_false (hbyte : isIdentifierByte byte) (dialect : Dialect) :
    dialect.isQuote byte = false := by
  simp only [isQuote, beq_eq_false hbyte (by decide : isIdentifierByte
    doubleQuote = false), beq_eq_false hbyte (by decide : isIdentifierByte
    apostrophe = false), beq_eq_false hbyte (by decide : isIdentifierByte
    backtick = false), Bool.and_false, Bool.or_false]

theorem Dialect.not_identifier_of_isQuote (h : dialect.isQuote byte) :
    isIdentifierByte byte = false := by
  rw [Bool.eq_false_iff]
  intro hbyte
  rw [isQuote_eq_false hbyte] at h
  cases h

theorem blankByte_cases (byte : UInt8) :
    blankByte byte = newline ∨ blankByte byte = space := by
  unfold blankByte
  split
  next h => exact .inl (eq_of_beq h)
  · exact .inr rfl

namespace Scan

/-! ## Two parts of a text -/

variable (dialect : Dialect) (scan : Scan) (ahead : Option UInt8)

/-- For every byte of a text that another byte follows, whether it belongs to a comment. -/
def commentsUntil (scan : Scan) (ahead : Option UInt8) : Text → List Bool
  | [] => []
  | byte :: rest =>
    let after := scan.next dialect byte (rest.head?.or ahead)
    inComment scan after :: commentsUntil after ahead rest

theorem length_comments (text : Text) :
    (scan.comments dialect text).length = text.length := by
  induction text generalizing scan with
  | nil => rfl
  | cons byte rest ih => simp [comments, ih]

theorem length_commentsUntil (text : Text) :
    (scan.commentsUntil dialect ahead text).length = text.length := by
  induction text generalizing scan with
  | nil => rfl
  | cons byte rest ih => simp [commentsUntil, ih]

/-- The scan goes over two parts of a text one after the other. -/
theorem comments_append (left right : Text) :
    scan.comments dialect (left ++ right) =
      scan.commentsUntil dialect right.head? left ++
        (scan.run dialect right.head? left).comments dialect right := by
  induction left generalizing scan with
  | nil => rfl
  | cons byte left ih =>
    simp only [cons_append, comments, commentsUntil, run, head?_append, ih]

theorem run_append (left right : Text) :
    scan.run dialect ahead (left ++ right) =
      (scan.run dialect (right.head?.or ahead) left).run dialect ahead right := by
  induction left generalizing scan with
  | nil => rfl
  | cons byte left ih =>
    simp only [cons_append, run, head?_append, ih, Option.or_assoc]

/-! ## Words -/

/-- The quotation mark of an open literal is no byte of an identifier. -/
def QuoteSound : Prop :=
  ∀ quote, scan.mode = .literal quote ∨ scan.mode = .escape quote →
    isIdentifierByte quote = false

/-- The scan stands where a word may follow: not inside the two bytes that open or close a
comment. -/
def Settled : Prop :=
  scan.QuoteSound ∧ scan.mode ≠ .commentOpening ∧ scan.mode ≠ .commentClosing

/-- Where the scan stands after a word. Only a backslash before the word makes a difference. -/
def afterWord : Scan :=
  match scan.mode with
  | .escape quote => ⟨.literal quote, scan.depth⟩
  | _ => scan

/-- Whether a word that follows belongs to a comment. -/
def hidesWord : Bool :=
  scan.mode == .comment || scan.mode == .lineComment

theorem start_settled : start.Settled := by
  refine ⟨fun quote h => ?_, by decide, by decide⟩
  rcases h with h | h <;> cases h

/-- What a byte of code leads to: into a literal or on in code, or, if it is a slash, into a
comment. -/
theorem codeNext_cases (depth : Nat) (byte : UInt8) (ahead : Option UInt8) :
    codeNext dialect depth byte ahead = (if dialect.isQuote byte then .literal byte else .code) ∨
      byte = slash ∧
        (codeNext dialect depth byte ahead = .commentOpening ∧ ahead = some asterisk ∨
          codeNext dialect depth byte ahead = .lineComment ∧
            dialect.opensLineComment depth) := by
  unfold codeNext
  split
  · exact .inl rfl
  · split
    next hopens =>
      simp only [Bool.and_eq_true, beq_iff_eq] at hopens
      exact .inr ⟨hopens.1, .inl ⟨rfl, hopens.2⟩⟩
    · split
      next hopens =>
        simp only [Bool.and_eq_true, beq_iff_eq] at hopens
        exact .inr ⟨hopens.1.1, .inr ⟨rfl, hopens.2⟩⟩
      · exact .inl rfl

/-- One more byte of a literal ends it, escapes what follows or is in it. -/
theorem literalNext_cases (quote byte : UInt8) : literalNext quote byte = .escape quote ∨
    literalNext quote byte = .code ∨ literalNext quote byte = .literal quote := by
  unfold literalNext
  split
  · exact .inl rfl
  · split
    · exact .inr (.inl rfl)
    · exact .inr (.inr rfl)

/-- A comment is opened by a slash before an asterisk, and closed before a slash. -/
theorem ahead_of_next (scan : Scan) (byte : UInt8) (ahead : Option UInt8) :
    ((scan.next dialect byte ahead).mode = .commentOpening →
      byte = slash ∧ ahead = some asterisk) ∧
    ((scan.next dialect byte ahead).mode = .commentClosing → ahead = some slash) := by
  -- In all other modes there is nothing to show.
  have hother : ∀ {mode : Mode} {opened closed : Prop}, (mode == .commentOpening) = false →
      (mode == .commentClosing) = false →
      (mode = .commentOpening → opened) ∧ (mode = .commentClosing → closed) := by
    intro mode opened closed hopening hclosing
    exact ⟨fun hmode => absurd hmode (by simpa using hopening),
      fun hmode => absurd hmode (by simpa using hclosing)⟩
  obtain ⟨mode, depth⟩ := scan
  cases mode with
  | code =>
    change (codeNext dialect depth byte ahead = .commentOpening → _) ∧
      (codeNext dialect depth byte ahead = .commentClosing → _)
    rcases codeNext_cases dialect depth byte ahead with hnext |
      ⟨hslash, ⟨hnext, hahead⟩ | ⟨hnext, -⟩⟩
    · rw [hnext]
      split <;> exact hother rfl rfl
    · exact ⟨fun _ => ⟨hslash, hahead⟩, fun hmode => by cases hnext.symm.trans hmode⟩
    · rw [hnext]
      exact hother rfl rfl
  | literal quote =>
    change (literalNext quote byte = .commentOpening → _) ∧
      (literalNext quote byte = .commentClosing → _)
    rcases literalNext_cases quote byte with hnext | hnext | hnext <;> rw [hnext] <;>
      exact hother rfl rfl
  | comment =>
    simp only [Scan.next]
    split
    next hcloses =>
      exact ⟨fun hmode => (by cases hmode),
        fun _ => by simpa using (Bool.and_eq_true_iff.mp hcloses).2⟩
    · exact hother rfl rfl
  | lineComment =>
    simp only [Scan.next]
    split <;> exact hother rfl rfl
  | escape | commentOpening | commentClosing => exact hother rfl rfl

theorem literalNext_quote {byte quote other : UInt8}
    (h : literalNext quote byte = .literal other ∨ literalNext quote byte = .escape other) :
    other = quote := by
  unfold literalNext at h
  split at h
  · simpa [eq_comm] using h
  · split at h
    · simp at h
    · simpa [eq_comm] using h

variable {scan} {byte quote ahead : UInt8}

/-- The quotation mark of an open literal is that of the literal before, or the byte that opened
it. -/
theorem quote_of_next {dialect : Dialect} {byte quote : UInt8} {ahead : Option UInt8}
    (h : (scan.next dialect byte ahead).mode = .literal quote ∨
      (scan.next dialect byte ahead).mode = .escape quote) :
    (scan.mode = .literal quote ∨ scan.mode = .escape quote) ∨
      byte = quote ∧ dialect.isQuote byte := by
  unfold Scan.next at h
  split at h
  · simp only [codeNext] at h
    split at h
    next hquote => exact .inr ⟨by simpa using h, hquote⟩
    · -- The other modes that code leads to have no quotation mark.
      split at h
      · simp at h
      · split at h <;> simp at h
  next previous hscan =>
    rw [literalNext_quote h]
    exact .inl (.inl hscan)
  next previous hscan =>
    obtain rfl : previous = quote := by simpa using h
    exact .inl (.inr hscan)
  · simp at h
  next hscan => split at h <;> simp_all
  · simp at h
  next hscan => split at h <;> simp_all

theorem QuoteSound.next (h : scan.QuoteSound) (dialect : Dialect) (byte : UInt8)
    (ahead : Option UInt8) : (scan.next dialect byte ahead).QuoteSound := by
  intro quote hmode
  rcases quote_of_next hmode with hbefore | ⟨rfl, hquote⟩
  · exact h quote hbefore
  · exact not_identifier_of_isQuote hquote

/-- A byte that neither closes nor opens a comment leaves the scan where a word may follow. -/
theorem QuoteSound.settled_next (h : scan.QuoteSound) (dialect : Dialect) (byte : UInt8)
    (hahead : isIdentifierByte ahead) :
    (scan.next dialect byte (some ahead)).Settled := by
  obtain ⟨hopens, hcloses⟩ := ahead_of_next dialect scan byte (some ahead)
  refine ⟨h.next dialect byte _, fun hopening => ?_, fun hclosing => ?_⟩
  · rw [Option.some.inj (hopens hopening).2] at hahead
    cases hahead
  · rw [Option.some.inj (hcloses hclosing)] at hahead
    cases hahead

theorem QuoteSound.run (h : scan.QuoteSound) (dialect : Dialect) (ahead : Option UInt8)
    (text : Text) : (scan.run dialect ahead text).QuoteSound := by
  induction text generalizing scan with
  | nil => exact h
  | cons byte rest ih => exact ih (h.next dialect byte _)

/-- The scan stands where a word may follow if a word does follow. -/
theorem Settled.run (h : scan.Settled) (dialect : Dialect)
    (hahead : isIdentifierByte ahead) (text : Text) :
    (scan.run dialect (some ahead) text).Settled := by
  rcases eq_nil_or_concat text with rfl | ⟨text, byte, rfl⟩
  · exact h
  · rw [concat_eq_append, run_append]
    exact (h.1.run dialect _ text).settled_next dialect byte hahead

/-- A byte of a word moves the scan as a word does. -/
theorem Settled.next_word (h : scan.Settled) (dialect : Dialect)
    (hbyte : isIdentifierByte byte) (ahead : Option UInt8) :
    scan.next dialect byte ahead = scan.afterWord := by
  obtain ⟨mode, depth⟩ := scan
  obtain ⟨hquote, hopening, hclosing⟩ := h
  have hne : ∀ other, isIdentifierByte other = false → (byte == other) = false :=
    fun other => beq_eq_false hbyte
  cases mode with
  | code =>
    simp only [Scan.next, afterWord, codeNext, depthNext, isQuote_eq_false hbyte,
      hne slash (by decide), hne openParen (by decide), hne closeParen (by decide),
      Bool.false_and, Bool.false_eq_true, if_false]
  | literal quote =>
    simp only [Scan.next, afterWord, literalNext, hne quote (hquote quote (Or.inl rfl)),
      hne backslash (by decide), hne newline (by decide), Bool.false_and, Bool.or_false,
      Bool.false_eq_true, if_false]
  | escape quote => rfl
  | commentOpening => exact absurd rfl hopening
  | comment =>
    simp only [Scan.next, afterWord, hne asterisk (by decide), Bool.false_and,
      Bool.false_eq_true, if_false]
  | commentClosing => exact absurd rfl hclosing
  | lineComment =>
    simp only [Scan.next, afterWord, hne newline (by decide), Bool.false_eq_true, if_false]

theorem Settled.afterWord (h : scan.Settled) : scan.afterWord.Settled := by
  obtain ⟨mode, depth⟩ := scan
  obtain ⟨hquote, hopening, hclosing⟩ := h
  cases mode with
  | escape quote =>
    refine ⟨fun other hother => ?_, by simp [afterWord], by simp [afterWord]⟩
    obtain rfl : quote = other := by simpa [afterWord] using hother
    exact hquote quote (Or.inr rfl)
  | code | literal | commentOpening | comment | commentClosing | lineComment =>
    exact ⟨hquote, hopening, hclosing⟩

theorem afterWord_afterWord (scan : Scan) : scan.afterWord.afterWord = scan.afterWord := by
  obtain ⟨mode, depth⟩ := scan
  cases mode <;> rfl

theorem hidesWord_afterWord (scan : Scan) : scan.afterWord.hidesWord = scan.hidesWord := by
  obtain ⟨mode, depth⟩ := scan
  cases mode <;> rfl

theorem Settled.inComment_afterWord (h : scan.Settled) :
    inComment scan scan.afterWord = scan.hidesWord := by
  obtain ⟨mode, depth⟩ := scan
  obtain ⟨-, hopening, hclosing⟩ := h
  cases mode with
  | commentOpening => exact absurd rfl hopening
  | commentClosing => exact absurd rfl hclosing
  | code | literal | escape | comment | lineComment => rfl

/-- Where the scan stands after a word does not depend on the word. -/
theorem Settled.run_word (h : scan.Settled) (dialect : Dialect) (ahead : Option UInt8) {word : Text}
    (hne : word ≠ []) (hword : ∀ byte ∈ word, isIdentifierByte byte) :
    scan.run dialect ahead word = scan.afterWord := by
  induction word generalizing scan with
  | nil => exact absurd rfl hne
  | cons byte rest ih =>
    obtain ⟨hbyte, hrest⟩ := forall_mem_cons.mp hword
    rw [Scan.run, h.next_word dialect hbyte]
    cases rest with
    | nil => rfl
    | cons next rest => rw [ih h.afterWord (by simp) hrest, afterWord_afterWord]

/-- A word belongs to a comment as a whole or not at all. -/
theorem Settled.commentsUntil_word (h : scan.Settled) (dialect : Dialect) (ahead : Option UInt8)
    {word : Text} (hword : ∀ byte ∈ word, isIdentifierByte byte) :
    scan.commentsUntil dialect ahead word = replicate word.length scan.hidesWord := by
  induction word generalizing scan with
  | nil => rfl
  | cons byte rest ih =>
    obtain ⟨hbyte, hrest⟩ := forall_mem_cons.mp hword
    rw [commentsUntil, h.next_word dialect hbyte, length_cons, replicate_succ,
      h.inComment_afterWord, ih h.afterWord hrest, hidesWord_afterWord]

end Scan

namespace Dialect

/-- A text with as many of its bytes blanked as are hidden. -/
def veil (text : Text) (hidden : List Bool) : Text :=
  zipWith (fun byte hidden => if hidden then blankByte byte else byte) text hidden

/-- The word with its bytes blanked, if it is hidden. -/
def veilWord (hidden : Bool) (word : Text) : Text :=
  if hidden then replicate word.length space else word

/-- Blanking a word that is in a comment as a whole or not at all. -/
theorem veil_word {word : Text} (hword : ∀ byte ∈ word, isIdentifierByte byte)
    (hidden : Bool) : veil word (replicate word.length hidden) = veilWord hidden word := by
  induction word with
  | nil => cases hidden <;> rfl
  | cons byte rest ih =>
    obtain ⟨hbyte, hrest⟩ := forall_mem_cons.mp hword
    have hblank : blankByte byte = space := by
      rw [blankByte, beq_eq_false hbyte (by decide), if_neg (by simp)]
    have hrest := ih hrest
    unfold veil at hrest ⊢
    rw [length_cons, replicate_succ, zipWith_cons_cons, hrest]
    cases hidden with
    | false => rfl
    | true =>
      simp only [veilWord, if_true, hblank]
      rfl

variable (dialect : Dialect) (scan : Scan)

theorem length_stripFrom (text : Text) :
    (dialect.stripFrom scan text).length = text.length := by
  rw [stripFrom, length_zipWith, length_comments, Nat.min_self]

/-- Blanking the comments of a text goes over it byte by byte. -/
theorem stripFrom_cons (byte : UInt8) (rest : Text) :
    dialect.stripFrom scan (byte :: rest) =
      (if inComment scan (scan.next dialect byte rest.head?) then blankByte byte else byte) ::
        dialect.stripFrom (scan.next dialect byte rest.head?) rest := by
  rfl

/-- Blanking the comments of a text goes over its parts one after the other. -/
theorem stripFrom_append (left right : Text) :
    dialect.stripFrom scan (left ++ right) =
      veil left (scan.commentsUntil dialect right.head? left) ++
        dialect.stripFrom (scan.run dialect right.head? left) right := by
  rw [stripFrom, comments_append, zipWith_append (by rw [length_commentsUntil])]
  rfl

/-- Blanking the comments of a text blanks a word at its start as a whole or not at all, and goes
on in the same way behind every word. -/
theorem stripFrom_word {scan : Scan} (hscan : scan.Settled) {word : Text} (hne : word ≠ [])
    (hword : ∀ byte ∈ word, isIdentifierByte byte) (rest : Text) :
    dialect.stripFrom scan (word ++ rest) =
      veilWord scan.hidesWord word ++ dialect.stripFrom scan.afterWord rest := by
  rw [stripFrom_append, hscan.run_word dialect _ hne hword,
    hscan.commentsUntil_word dialect _ hword, veil_word hword]

/-- Blanking the comments of a text does the same to what stands around a word, whichever word it
is, and blanks the word as a whole or not at all. -/
theorem stripComments_word (left right : Text) {first : UInt8}
    (hfirst : isIdentifierByte first) :
    ∃ left' right' hidden, left'.length = left.length ∧
      ∀ word, (∀ byte ∈ word, isIdentifierByte byte) → word.head? = some first →
        dialect.stripComments (left ++ word ++ right) =
          left' ++ veilWord hidden word ++ right' := by
  have hsettled := start_settled.run dialect hfirst left
  refine ⟨veil left (start.commentsUntil dialect (some first) left),
    dialect.stripFrom (start.run dialect (some first) left).afterWord right,
    (start.run dialect (some first) left).hidesWord, ?_, ?_⟩
  · rw [veil, length_zipWith, length_commentsUntil, Nat.min_self]
  · intro word hword hhead
    have hne : word ≠ [] := by
      rintro rfl
      cases hhead
    have hahead : (word ++ right).head? = some first := by
      rw [head?_append, hhead]
      rfl
    rw [stripComments, append_assoc, stripFrom_append, hahead,
      stripFrom_word dialect hsettled hne hword, append_assoc]

end Dialect

end Restyle
