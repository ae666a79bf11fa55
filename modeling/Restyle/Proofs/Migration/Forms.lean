import Restyle.Proofs.Migration.Changes
import Restyle.Proofs.Migration.Sole

/-!
# A value by itself and as a part

A value of a composite property that stands alone is rewritten as a whole. With another part behind
it, it is rewritten as a part, by the same table in the same way, but then it is put in the form of
what it replaces: a bare name for a reference becomes a reference, and a reference for a bare name
becomes that name. A value that stands alone keeps the form that the table gave it. So the two texts
differ in these two cases, and in no other: `Resolution.resolveFile_forms`.
-/

namespace Restyle

open Byte Dialect Enclosure List Scan Stylesheet Text Value

/-! ## Values of one part -/

namespace Value

/-- A text that is one part by itself: it has no quotation marks, braces, semicolons, blanks and
comments, and its parentheses and brackets are closed. -/
structure IsOnePart (dialect : Dialect) (part : Text) : Prop where
  ne : part ≠ []
  quotes : ∀ byte ∈ part, dialect.isQuote byte = false
  braces : ∀ byte ∈ part, byte ≠ openBrace ∧ byte ≠ closeBrace
  semicolons : ∀ byte ∈ part, byte ≠ semicolon
  blanks : hasBlank part = false
  comments : dialect.comments part = []
  balanced : isBalanced 0 part
  brackets : part.foldl Declaration.depthNext 0 = 0

variable {dialect : Dialect} {part : Text}

/-- A balanced text without spaces and quotation marks does not divide a value, and it leaves
nothing open. -/
theorem holds_of_isBalanced (hdialect : dialect ≠ .script) {text : Text} {depth : Nat}
    (hquotes : ∀ byte ∈ text, dialect.isQuote byte = false)
    (hspaces : ∀ byte ∈ text, isSpace byte = false)
    (hbalanced : isBalanced depth text) :
    (Enclosure.mk depth none).holds text ∧
      (Enclosure.mk depth none).after text = .outside := by
  induction text generalizing depth with
  | nil =>
    obtain rfl : depth = 0 := by simpa [isBalanced] using hbalanced
    exact ⟨rfl, rfl⟩
  | cons byte text ih =>
    obtain ⟨hquote, hquotes⟩ := forall_mem_cons.mp hquotes
    obtain ⟨hspace, hspaces⟩ := forall_mem_cons.mp hspaces
    have hnext : (Enclosure.mk depth none).next byte = ⟨depthNext depth byte, none⟩ := by
      rw [enclosure_afterCode hdialect, afterCode, hquote]
      rfl
    obtain ⟨hholds, hafter⟩ := ih hquotes hspaces (isBalanced_cons.mp hbalanced).2
    rw [holds, divides, hspace, Enclosure.after, foldl_cons, hnext]
    exact ⟨by simpa using hholds, hafter⟩

/-- The parts of a value of two parts, of which the second is a digit. -/
theorem parts_pair (hdialect : dialect ≠ .script) (hpart : IsOnePart dialect part) :
    parts (part ++ utf8 " 0") = [⟨0, part.length⟩, ⟨part.length + 1, part.length + 2⟩] := by
  have hspaces := isSpace_of_hasBlank hpart.blanks
  obtain ⟨hholds, hafter⟩ := holds_of_isBalanced hdialect hpart.quotes hspaces hpart.balanced
  have hbegins : part.head?.any (! isFiller ·) := by
    obtain ⟨byte, rest, rfl⟩ := exists_cons_of_ne_nil hpart.ne
    have hcloses := (isBalanced_cons.mp hpart.balanced).1.resolve_right (Nat.lt_irrefl 0)
    simpa [isFiller, hspaces byte mem_cons_self] using hcloses
  have hstands : Enclosure.Stands part (utf8 " 0") := ⟨hbegins, hholds, .inr ⟨hafter, rfl⟩⟩
  have hparts := hstands.partsFrom_eq 0
  rw [Nat.zero_add] at hparts
  exact hparts

/-! ## Forms -/

/-- Whether a replacement is put in parentheses: a bare name for a reference is. -/
def isWrapped (part new : Text) : Bool :=
  isReference part && isBare new

/-- Whether a replacement is taken out of its parentheses: a reference to a single name is, if it
replaces a bare name. -/
def isUnwrapped (part new : Text) : Bool := isBare part && isReference new && isBare (referent new)
    && !(referent new).contains comma

theorem referTo_ne (text : Text) : referTo text ≠ text := by
  intro h
  have hlength := congrArg length h
  rw [referTo, length_append, length_append, length_opening] at hlength
  omega

theorem length_trim_le (text : Text) : (trim text).length ≤ text.length := by
  have hdrop : ∀ chars : List Char, byteSize (chars.dropWhile isBlank) ≤ byteSize chars := by
    intro chars
    have hsplit := byteSize_append (chars.takeWhile isBlank) (chars.dropWhile isBlank)
    rw [takeWhile_append_dropWhile] at hsplit
    omega
  rw [trim, length_ofChars, trimChars, byteSize_reverse, ← byteSize_chars]
  calc byteSize (((chars text).dropWhile isBlank).reverse.dropWhile isBlank)
      ≤ byteSize ((chars text).dropWhile isBlank).reverse := hdrop _
    _ = byteSize ((chars text).dropWhile isBlank) := byteSize_reverse _
    _ ≤ byteSize (chars text) := hdrop _

/-- A replacement has the form of the part already, unless it is wrapped or unwrapped. -/
theorem fitForm_eq_self_iff (part new : Text) :
    fitForm part new = new ↔ isWrapped part new = false ∧ isUnwrapped part new = false := by
  cases hwrapped : isWrapped part new with
  | true =>
    have hform : fitForm part new = referTo new := if_pos hwrapped
    rw [hform]
    exact iff_of_false (referTo_ne new) fun h => Bool.noConfusion h.1
  | false =>
    have hform : fitForm part new = if isUnwrapped part new then
        trim (referent new) else new := by
      unfold fitForm
      rw [show (isReference part && isBare new) = false from hwrapped]
      rfl
    rw [hform]
    cases hunwrapped : isUnwrapped part new with
    | true =>
      refine iff_of_false (fun h => ?_) fun h => Bool.noConfusion h.2
      have hreference : isReference new := by
        simp only [isUnwrapped, Bool.and_eq_true] at hunwrapped
        exact hunwrapped.1.1.2
      have hlength := congrArg length (referTo_referent hreference)
      have htrim := length_trim_le (referent new)
      rw [if_pos rfl] at h
      rw [h] at htrim
      rw [length_append, length_append, length_opening] at hlength
      omega
    | false => simp

end Value

/-! ## Declared values -/

namespace Stylesheet

open Value (IsOnePart)

variable {dialect : Dialect} {part : Text}

theorem isDeclarable_of_isOnePart (h : IsOnePart dialect part) : IsDeclarable dialect part where
  quotes := h.quotes
  braces := h.braces
  semicolons := h.semicolons
  comments := h.comments
  closed := h.brackets
  trimmed := isTrimmed_of_hasBlank h.ne h.blanks

theorem chars_pair (part : Text) :
    chars (part ++ utf8 " 0") = chars part ++ [' ', '0'] := by
  have hzero : utf8 " 0" = [space, 0x30] := rfl
  rw [hzero, chars_around_ascii (by decide)]
  rfl

theorem comments_pair (h : IsOnePart dialect part) : dialect.comments (part ++ utf8 " 0") = [] := by
  have hharmless : isHarmless (utf8 " 0").head? := rfl
  obtain ⟨hfirst, hafter⟩ := unmarked_until (rfl : start.mode = .code) h.quotes
    (Marked.unmarked_of_runs h.comments) hharmless
  refine Marked.runs_of_unmarked ?_
  rw [Dialect.marks, marks_append]
  refine forall_mem_append.mpr ⟨hfirst, ?_⟩
  rw [hafter]
  exact unmarked_of_slash_notMem (by decide) rfl none

theorem isDeclarable_pair (h : IsOnePart dialect part) :
    IsDeclarable dialect (part ++ utf8 " 0") where
  quotes := by
    have hzero : (utf8 " 0").all (!dialect.isQuote ·) := by cases dialect <;> rfl
    exact forall_mem_append.mpr ⟨h.quotes, by simpa using hzero⟩
  braces := by
    have hzero : (utf8 " 0").all (fun byte =>
        byte != openBrace && byte != closeBrace) := rfl
    exact forall_mem_append.mpr ⟨h.braces, by simpa using hzero⟩
  semicolons := by
    have hzero : (utf8 " 0").all (· != semicolon) := rfl
    exact forall_mem_append.mpr ⟨h.semicolons, by simpa using hzero⟩
  comments := comments_pair h
  closed := by
    rw [foldl_append, h.brackets]
    rfl
  trimmed := by
    have hfirst := (isTrimmed_of_hasBlank h.ne h.blanks).first
    refine ⟨by simp [h.ne], ?_, ?_⟩
    · rw [chars_pair]
      cases hchars : chars part with
      | nil =>
        have hlength := byteSize_chars part
        rw [hchars] at hlength
        exact absurd (eq_nil_of_length_eq_zero hlength.symm) h.ne
      | cons char rest =>
        rw [hchars] at hfirst
        exact hfirst
    · rw [chars_pair, getLast?_append]
      rfl

end Stylesheet

/-! ## Tables whose tokens have no blanks -/

namespace Table

variable {dialect : Dialect} {property part : Text} {table : Table}

theorem fitForm_zero (new : Text) : fitForm (utf8 "0") new = new := by
  have hreference : isReference (utf8 "0") = false := rfl
  have hbare : isBare (utf8 "0") = false := rfl
  simp [fitForm, hreference, hbare]

/-- What becomes of a value of two parts: each is rewritten, the first in its form. -/
theorem rewriteList_pair (hdialect : dialect ≠ .script)
    (htokens : ∀ entry ∈ table, hasBlank entry.token = false)
    (hpart : Value.IsOnePart dialect part) :
    table.rewriteList dialect property (part ++ utf8 " 0") =
      fitForm part (table.rewrite dialect property part) ++ utf8 " " ++
        table.rewrite dialect property (utf8 "0") := by
  obtain ⟨hacross, hinside⟩ := across_eq_nil htokens
  have hzero : utf8 " 0" = utf8 " " ++ utf8 "0" := rfl
  have hspace : (utf8 " ").length = 1 := rfl
  have hdigit : (utf8 "0").length = 1 := rfl
  have hparts : codeParts dialect (part ++ utf8 " 0") =
      [⟨0, part.length⟩, ⟨part.length + 1, part.length + 2⟩] := by
    rw [codeParts, stripComments, stripFrom_of_unmarked
      (Marked.unmarked_of_runs (comments_pair hpart)), parts_pair hdialect hpart]
  have hvalue : part ++ utf8 " 0" = part ++ utf8 " " ++ utf8 "0" := by
    rw [hzero, append_assoc]
  have hfirst : (Span.mk 0 part.length).slice (part ++ utf8 " 0") = part := by
    simp [Span.slice]
  have hmiddle : (Span.mk part.length (part.length + 1)).slice (part ++ utf8 " 0") = utf8 " " := by
    have hslice := slice_middle part (utf8 " ") (utf8 "0")
    rwa [length_append, hspace, ← hvalue] at hslice
  have hlast : (Span.mk (part.length + 1) (part.length + 2)).slice (part ++ utf8 " 0") =
      utf8 "0" := by
    have hslice := slice_middle (part ++ utf8 " ") (utf8 "0") []
    have hfront : (part ++ utf8 " ").length = part.length + 1 := by
      rw [length_append, hspace]
    have hstop : (part ++ utf8 " " ++ utf8 "0").length = part.length + 2 := by
      rw [length_append, hfront, hdigit]
    rwa [hstop, hfront, append_nil, ← hvalue] at hslice
  have hend : (part ++ utf8 " 0").drop (part.length + 2) = [] := by
    have hlength : (part ++ utf8 " 0").length = part.length + 2 := by
      rw [hvalue, length_append, length_append, hspace, hdigit]
    exact drop_eq_nil_of_le (Nat.le_of_eq hlength)
  rw [rewriteList, hacross, hinside]
  show rewriteParts dialect property table (part ++ utf8 " 0") = _
  rw [rewriteParts, hparts]
  simp only [map_cons, map_nil, fill, hfirst, hlast, fitForm_zero, hmiddle, hend, append_nil]
  simp [Span.slice]

end Table

namespace Resolution

open Value (IsOnePart)

variable {σ : Type} {table : Table}

/-- What a table without choices makes of a stylesheet with one declaration. -/
theorem resolveFile_sole (interaction : Interaction σ) (context : Context) {name value : Text}
    (hpath : ofPath context.path ≠ .script)
    (hasks : ∀ entry ∈ table, entry.mapping.asks = false)
    (htokens : ∀ entry ∈ table, hasBlank entry.token = false)
    (hname : Declaration.isName (ofPath context.path) name)
    (hvalue : Stylesheet.IsDeclarable (ofPath context.path) value)
    (session : Session σ) :
    ∃ changes,
      (resolveFile interaction context table (sole name value)).run.run session =
        (.ok ⟨sole name (if isList name value then
            table.rewriteList (ofPath context.path) name value
          else table.rewrite (ofPath context.path) name value), changes⟩, session) := by
  obtain ⟨changes, hresolve⟩ := tryResolve_decided interaction context (sole name value) hasks
    (fun entry hmem => isFlush_of_hasBlank (htokens entry hmem))
    (Source.rules context.path (sole name value))
  rw [targets_sole hpath hname hvalue, ofValue_eq_self hpath] at hresolve
  refine ⟨changes, resolveFile_of_tryResolve ?_⟩
  rw [hresolve]
  exact congrArg (fun data => ((.ok ⟨data, changes⟩, session) : Except Halt Resolution × Session σ))
    (apply_sole ..)

/-- A value of one part of a composite property, by itself and with another part behind it, where no
token has a blank and nothing has to be chosen. By itself it becomes what the table makes of it; as
a part it becomes the same in the form of the part. The two are equal unless a bare name replaces a
reference, which wraps it as a part, or a reference to a single name replaces a bare one, which
unwraps it as a part. -/
theorem resolveFile_forms (interaction : Interaction σ) (context : Context) (table : Table)
    (name part : Text) (session : Session σ) (hpath : Dialect.ofPath context.path ≠ .script)
    (hasks : ∀ entry ∈ table, entry.mapping.asks = false)
    (htokens : ∀ entry ∈ table, Text.hasBlank entry.token = false)
    (hname : Declaration.isName (Dialect.ofPath context.path) name = true)
    (hcomposite : PropertyName.isComposite name = true)
    (hpart : IsOnePart (Dialect.ofPath context.path) part) :
    ∃ alone inList last changes changes',
      alone = table.rewrite (Dialect.ofPath context.path) name part ∧
      last = table.rewrite (Dialect.ofPath context.path) name (utf8 "0") ∧
      (resolveFile interaction context table (Stylesheet.sole name part)).run.run session =
        (.ok ⟨Stylesheet.sole name alone, changes⟩, session) ∧
      (resolveFile interaction context table
          (Stylesheet.sole name (part ++ utf8 " 0"))).run.run session =
        (.ok ⟨Stylesheet.sole name (inList ++ utf8 " " ++ last), changes'⟩, session) ∧
      (inList = alone ↔
        ¬ (Value.isReference part = true ∧ Value.isBare alone = true) ∧
        ¬ (Value.isBare part = true ∧ Value.isReference alone = true ∧
          Value.isBare (Value.referent alone) = true ∧ Byte.comma ∉ Value.referent alone)) ∧
      (Value.isReference part = true → Value.isBare alone = true →
        inList = Value.referTo alone) ∧
      (Value.isBare part = true → Value.isReference alone = true →
        Value.isBare (Value.referent alone) = true → Byte.comma ∉ Value.referent alone →
          inList = Text.trim (Value.referent alone)) := by
  have halone : isList name part = false := by
    rw [isList, hpart.blanks, Bool.and_false, Bool.false_and]
  have hlist : isList name (part ++ utf8 " 0") = true := by
    rw [isList, hcomposite, parts_pair hpath hpart, hasBlank,
      Stylesheet.chars_pair, any_append]
    simp [isBlank]
  obtain ⟨changes, hrun⟩ := resolveFile_sole interaction context hpath hasks htokens hname
    (isDeclarable_of_isOnePart hpart) session
  obtain ⟨changes', hrun'⟩ := resolveFile_sole interaction context hpath hasks htokens hname
    (isDeclarable_pair hpart) session
  rw [halone, if_neg Bool.false_ne_true] at hrun
  rw [hlist, if_pos rfl, Table.rewriteList_pair hpath htokens hpart] at hrun'
  refine ⟨_, _, _, changes, changes', rfl, rfl, hrun, hrun', ?_, ?_, ?_⟩
  · rw [fitForm_eq_self_iff]
    simp [isWrapped, isUnwrapped, ← Bool.not_eq_true, and_assoc]
  · intro hreference hbare
    simp [fitForm, hreference, hbare]
  · intro hbare hreference hinner hcomma
    have hnot := isReference_and_isBare (rfl : part.head? = part.head?)
    rw [hbare, Bool.and_true] at hnot
    simp [fitForm, hnot, hbare, hreference, hinner, hcomma]

/-- The table that has a bare name for a reference. -/
def bareForReference : Table :=
  [⟨utf8 "var(--x)", .plain (utf8 "--y")⟩]

theorem isOnePart_reference : IsOnePart .css (utf8 "var(--x)") where
  ne := cons_ne_nil _ _
  quotes := by
    have hquotes : (utf8 "var(--x)").all (!Dialect.css.isQuote ·) = true := rfl
    simpa using hquotes
  braces := by
    have hbraces : (utf8 "var(--x)").all (fun byte =>
        byte != openBrace && byte != closeBrace) := rfl
    simpa using hbraces
  semicolons := by
    have hsemicolons : (utf8 "var(--x)").all (· != semicolon) = true := rfl
    simpa using hsemicolons
  blanks := rfl
  comments := rfl
  balanced := rfl
  brackets := rfl

/-- A reference that `bareForReference` replaces becomes a bare name by itself, and stays a
reference as a part. -/
theorem resolveFile_forms_padding :
    Dialect.ofPath sheetContext.path ≠ .script ∧
    (∀ entry ∈ bareForReference, entry.mapping.asks = false) ∧
    (∀ entry ∈ bareForReference, Text.hasBlank entry.token = false) ∧
    Declaration.isName (Dialect.ofPath sheetContext.path) (utf8 "padding") = true ∧
    PropertyName.isComposite (utf8 "padding") = true ∧
    IsOnePart (Dialect.ofPath sheetContext.path) (utf8 "var(--x)") ∧
    ∃ inList last changes changes',
      (resolveFile Interaction.silent sheetContext bareForReference
          (sole (utf8 "padding") (utf8 "var(--x)"))).run.run Session.silent =
        (.ok ⟨Stylesheet.sole (utf8 "padding") (utf8 "--y"), changes⟩, Session.silent) ∧
      (resolveFile Interaction.silent sheetContext bareForReference
          (sole (utf8 "padding") (utf8 "var(--x)" ++ utf8 " 0"))).run.run
            Session.silent =
        (.ok ⟨Stylesheet.sole (utf8 "padding") (inList ++ utf8 " " ++ last), changes'⟩,
          Session.silent) ∧
      inList = utf8 "var(--y)" ∧ last = utf8 "0" := by
  have hdialect : ofPath sheetContext.path = .css := rfl
  have hpath : ofPath sheetContext.path ≠ .script := by
    rw [hdialect]
    decide
  have hasks : ∀ entry ∈ bareForReference, entry.mapping.asks = false := by
    intro entry hmem
    obtain rfl := mem_singleton.mp hmem
    rfl
  have htokens : ∀ entry ∈ bareForReference, hasBlank entry.token = false := by
    intro entry hmem
    obtain rfl := mem_singleton.mp hmem
    rfl
  have hpart : IsOnePart (ofPath sheetContext.path) (utf8 "var(--x)") :=
    hdialect.symm ▸ isOnePart_reference
  refine ⟨hpath, hasks, htokens, rfl, rfl, hpart, ?_⟩
  obtain ⟨alone, inList, last, changes, changes', halone, hlast, hrun, hrun', -, hwrapped, -⟩ :=
    resolveFile_forms Interaction.silent sheetContext bareForReference (utf8 "padding")
      (utf8 "var(--x)") Session.silent hpath hasks htokens rfl rfl hpart
  have hbare : alone = utf8 "--y" := halone.trans rfl
  subst hbare
  exact ⟨inList, last, changes, changes', hrun, hrun', hwrapped rfl rfl, hlast.trans rfl⟩

/-- The table of a token with an open bracket and the semicolon behind it. -/
def bracketToken : Table :=
  [⟨utf8 "[;", .plain (utf8 "x")⟩]

/-- The same value becomes another text by itself than as a part: a bare name for a reference is not
wrapped by itself. So does a value with an open bracket, which takes the semicolon behind it into
the value. -/
theorem resolveFile_forms_differ :
    ((resolveFile Interaction.silent sheetContext bareForReference
          (utf8 ".a \x7b padding: var(--x); \x7d")).run.run Session.silent =
        (.ok ⟨utf8 ".a \x7b padding: --y; \x7d", [⟨utf8 "var(--x)", utf8 "--y", 1⟩]⟩,
          Session.silent) ∧
      (resolveFile Interaction.silent sheetContext bareForReference
          (utf8 ".a \x7b padding: var(--x) 0; \x7d")).run.run Session.silent =
        (.ok ⟨utf8 ".a \x7b padding: var(--y) 0; \x7d", [⟨utf8 "var(--x)", utf8 "--y", 1⟩]⟩,
          Session.silent)) ∧
    ((resolveFile Interaction.silent sheetContext bracketToken
          (utf8 ".a \x7b padding: [; \x7d")).run.run Session.silent =
        (.ok ⟨utf8 ".a \x7b padding: x \x7d", [⟨utf8 "[;", utf8 "x", 1⟩]⟩, Session.silent) ∧
      (resolveFile Interaction.silent sheetContext bracketToken
          (utf8 ".a \x7b padding: [ 0; \x7d")).run.run Session.silent =
        (.ok ⟨utf8 ".a \x7b padding: [ 0; \x7d", []⟩, Session.silent)) := by
  -- each stylesheet has one block with one target
  have hone : ∀ {text : Text} {block : Block} {target : Target},
      Block.closed 0 [] (Dialect.css.visible (Dialect.css.stripComments text)) = [block] →
      (Source.declaredIn .css (Dialect.css.stripComments text)
        (Dialect.css.visible (Dialect.css.stripComments text)) block).map (Declared.target text) =
          [target] →
      Target.ofRules text (Source.rules sheetContext.path text) = [target] := by
    intro text block target hblocks htargets
    have hpath : Dialect.ofPath sheetContext.path = .css := rfl
    refine (Target.ofRules_of_closed hpath hblocks (List.pairwise_singleton _ _) ?_
      (List.pairwise_singleton _ _)).2
    rwa [List.flatMap_singleton]
  refine ⟨⟨resolveFile_of_tryResolve ?_, resolveFile_of_tryResolve ?_⟩,
    resolveFile_of_tryResolve ?_, resolveFile_of_tryResolve ?_⟩
  · have htargets := @hone (utf8 ".a \x7b padding: var(--x); \x7d") ⟨3, 24⟩
      ⟨utf8 "padding", ⟨14, 22⟩, utf8 "var(--x)", utf8 "var(--x)", false, false⟩ rfl rfl
    rw [tryResolve, htargets]
    rfl
  · have htargets := @hone (utf8 ".a \x7b padding: var(--x) 0; \x7d") ⟨3, 26⟩
      ⟨utf8 "padding", ⟨14, 24⟩, utf8 "var(--x) 0", utf8 "var(--x) 0", false, true⟩ rfl rfl
    rw [tryResolve, htargets]
    rfl
  · have htargets := @hone (utf8 ".a \x7b padding: [; \x7d") ⟨3, 17⟩
      ⟨utf8 "padding", ⟨14, 16⟩, utf8 "[;", utf8 "[;", false, false⟩ rfl rfl
    rw [tryResolve, htargets]
    rfl
  · have htargets := @hone (utf8 ".a \x7b padding: [ 0; \x7d") ⟨3, 19⟩
      ⟨utf8 "padding", ⟨14, 18⟩, utf8 "[ 0;", utf8 "[ 0;", false, true⟩ rfl rfl
    rw [tryResolve, htargets]
    rfl

end Resolution

end Restyle
