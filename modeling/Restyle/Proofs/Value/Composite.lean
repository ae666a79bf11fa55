import Restyle.Proofs.Value.Comments
import Restyle.Proofs.Value.Layout

/-!
# Comments of composite values

A composite value is divided into parts by the blanks of its code, and the parts are rewritten one
by one. If no literal of the value holds a backslash or a line feed, the division follows the
comment scan: every part is read by itself as in the value, and its comments stand in parentheses
(`Value.reads_of_mem_codeParts`). So the value that is rebuilt from rewritten parts has the comments
of the value in their order: `Value.inOrder_rebuild`.
-/

namespace Restyle

open Byte List Marked Scan Text

namespace Scan

variable {dialect : Dialect} {scan : Scan}

/-! ## Comments in parentheses -/

variable {ahead : Option UInt8}

/-- Comments in parentheses do not end with their line. -/
theorem next_ne_lineComment (hdialect : dialect ≠ .script) {byte : UInt8}
    (hline : scan.mode ≠ .lineComment)
    (hdeep : inComment scan (scan.next dialect byte ahead) → 0 < scan.depth) :
    (scan.next dialect byte ahead).mode ≠ .lineComment := by
  intro hnext
  obtain ⟨mode, depth⟩ := scan
  cases mode with
  | code =>
    change codeNext dialect depth byte ahead = .lineComment at hnext
    have hpositive : 0 < depth := hdeep (by simp [inComment, Scan.next, hnext])
    rcases codeNext_cases dialect depth byte ahead with hcase | ⟨-, ⟨hcase, -⟩ | ⟨-, hopens⟩⟩
    · rw [hcase] at hnext
      split at hnext <;> cases hnext
    · cases hcase.symm.trans hnext
    · cases dialect with
      | css => cases hopens
      | scss => simp only [Dialect.opensLineComment, beq_iff_eq] at hopens; omega
      | script => exact hdialect rfl
  | literal quote =>
    rcases literalNext_cases quote byte with hcase | hcase | hcase <;> cases hcase.symm.trans hnext
  | comment =>
    simp only [Scan.next] at hnext
    split at hnext <;> cases hnext
  | escape | commentOpening | commentClosing => cases hnext
  | lineComment => exact hline rfl

/-- A byte that does not belong to a comment is read outside comments, if they do not end with their
line. -/
theorem isOutside_of_unmarked {after : Scan} (hline : scan.mode ≠ .lineComment)
    (h : inComment scan after = false) : scan.isOutside := by
  obtain ⟨mode, depth⟩ := scan
  cases mode with
  | code | literal | escape => rfl
  | commentOpening | comment | commentClosing => cases h
  | lineComment => exact absurd rfl hline

/-- Comments in parentheses end with a slash. -/
theorem Deep.getLast_runs (hdialect : dialect ≠ .script) {text : Text}
    (h : scan.Deep dialect ahead text) (hline : scan.mode ≠ .lineComment)
    (hclosing : scan.mode = .commentClosing → ∀ byte ∈ text.head?, byte = slash)
    (hends : (scan.marksUntil dialect ahead text).endsMarked = false) :
    ∀ run ∈ (scan.marksUntil dialect ahead text).runs, run.getLast? = some slash := by
  induction text generalizing scan with
  | nil => intro run hrun; cases hrun
  | cons byte rest ih =>
    obtain ⟨hbyte, hrest⟩ := h
    rw [marksUntil_cons] at hends ⊢
    have hline' := next_ne_lineComment hdialect hline hbyte
    have hclosing' : (scan.next dialect byte (rest.head?.or ahead)).mode = .commentClosing →
        ∀ next ∈ rest.head?, next = slash := by
      intro hmode next hnext
      have hahead := (ahead_of_next ..).2 hmode
      rw [Option.mem_def] at hnext
      simpa [hnext] using hahead
    have hends' : ((scan.next dialect byte (rest.head?.or ahead)).marksUntil dialect ahead
        rest).endsMarked = false := by
      cases rest with
      | nil => rfl
      | cons next rest =>
        rwa [marksUntil_cons, Marked.endsMarked, getLast?_cons_cons] at hends
    have hlater := ih hrest hline' hclosing' hends'
    cases hmark : inComment scan (scan.next dialect byte (rest.head?.or ahead)) with
    | false => exact hlater
    | true =>
      rw [runs]
      cases hbegins : beginsMarked ((scan.next dialect byte
          (rest.head?.or ahead)).marksUntil dialect ahead rest) with
      | true =>
        obtain ⟨run, others, -, hruns, -, -⟩ := (runs_spec _).1 hbegins
        rw [hruns, forall_mem_cons] at hlater
        rw [hruns]
        refine forall_mem_cons.mpr ⟨?_, hlater.2⟩
        rw [getLast?_cons, hlater.1]
        rfl
      | false =>
        -- The comment ends here, so the scan stands outside it before the next byte.
        refine forall_mem_cons.mpr ⟨?_, hlater⟩
        cases rest with
        | nil =>
          rw [hmark] at hends
          cases hends
        | cons next rest =>
          have hmode := closing_of_inComment hmark (isOutside_of_unmarked hline'
            (by simpa [marksUntil_cons, beginsMarked] using hbegins))
          rw [hclosing hmode byte rfl]
          rfl

end Scan

namespace Value

variable {dialect : Dialect}

/-- Whether a composite value is divided as the scan reads it, and into characters: its literals
hold no backslashes and no line feeds, it does not end in a comment, and its parts are well
formed. -/
def isPlain (dialect : Dialect) (value : Text) : Bool :=
  start.hasPlainLiterals dialect value && !(dialect.marks value).endsMarked
    && (codeParts dialect value).all fun span => wellFormed (span.slice value)

variable {value : Text}

/-- The parts of a plain value are read by themselves as in the value, and their comments end with a
slash. -/
theorem reads_of_mem_codeParts (hdialect : dialect ≠ .script)
    (hplain : isPlain dialect value) {span : Span} (h : span ∈ codeParts dialect value) :
    dialect.Reads dialect value span ∧
      ∀ run ∈ dialect.comments (span.slice value), run.getLast? = some slash := by
  simp only [isPlain, Bool.and_eq_true, Bool.not_eq_true'] at hplain
  obtain ⟨⟨hliterals, hvalueEnds⟩, -⟩ := hplain
  obtain ⟨tail, cells, rfl, hlaid⟩ := exists_laid hdialect value hliterals
  rw [hlaid.codeParts_join] at h
  obtain ⟨left, part, right, hjoin, rfl, hbefore, hwhole⟩ := @Laid.isWhole_of_mem _ _ _ hlaid []
    span rfl h
  rw [nil_append] at hjoin
  rw [hjoin] at hliterals hvalueEnds ⊢
  have hne := hwhole.ne_nil
  have hrest := (enclosure_run hdialect start_ne_escape hliterals).2.2
  rw [hbefore] at hrest
  have hdeep := deep_of_holds hdialect start_ne_escape hrest hwhole.stands.holds
  have hbegins : (start.marksUntil dialect right.head? part).beginsMarked = false := by
    obtain ⟨first, others, rfl⟩ := exists_cons_of_ne_nil hne
    rw [Bool.eq_false_iff]
    intro hmark
    change inComment start (start.next ..) at hmark
    have hfirst := hwhole.stands.begins
    rw [Dialect.stripUntil_cons] at hfirst
    rcases shown_of_inComment hmark with hshown | hshown <;> rw [hshown] at hfirst <;>
      cases hfirst
  have hpartEnds : (start.marksUntil dialect right.head? part).endsMarked = false := by
    rcases hwhole.run with rfl | hrun
    · -- A part at the end of the value ends as the value does.
      rw [append_nil] at hbefore hvalueEnds
      rw [Dialect.marks, marks_append, hbefore] at hvalueEnds
      obtain ⟨first, others, rfl⟩ := exists_cons_of_ne_nil hne
      rw [head?_nil, marksUntil_none]
      rw [endsMarked, getLast?_append, marks_cons, getLast?_cons] at hvalueEnds
      rw [endsMarked, marks_cons, getLast?_cons]
      exact hvalueEnds
    · exact hdeep.endsMarked (by rw [hrun]; rfl)
  refine ⟨Dialect.reads_of_append (by rw [hbefore]; exact ⟨rfl, fun _ => rfl⟩) hne hbegins
    hpartEnds, ?_⟩
  have hslice : (Span.mk left.length (left.length + part.length)).slice (left ++ (part ++ right)) =
      part := by
    simp [Span.slice]
  rw [hslice, Dialect.comments, Dialect.marks, ← marksUntil_of_ends hpartEnds]
  exact hdeep.getLast_runs hdialect (by simp [start]) (by simp [start]) hpartEnds

/-! ## The form of a part -/

theorem referTo_referent (h : isReference value) :
    value = utf8 "var(" ++ (referent value ++ utf8 ")") := by
  simp only [isReference, startsWith, endsWith, Bool.and_eq_true,
    isPrefixOf_iff_prefix, isSuffixOf_iff_suffix] at h
  obtain ⟨⟨rest, rfl⟩, ⟨front, hfront⟩⟩ := h
  have hlast := congrArg getLast? hfront
  rw [closing_eq, getLast?_concat] at hlast
  rcases eq_nil_or_concat rest with rfl | ⟨inner, last, rfl⟩
  · -- The bytes in front do not end with the closing parenthesis.
    cases hlast
  · rw [concat_eq_append, ← append_assoc, getLast?_concat] at hlast
    obtain rfl := Option.some.inj hlast
    rw [referent, opening_eq, closing_eq]
    simp

/-- A bare name in a reference is what is left of it when it is trimmed, and blanks behind that. -/
theorem trim_of_isBare {name : Text} (hbare : isBare name)
    (hformed : wellFormed (utf8 "var(" ++ (name ++ utf8 ")"))) :
    ∃ blanks, (∀ char ∈ blanks, isBlank char) ∧
      name = trim name ++ ofChars blanks := by
  have hrest := wellFormed_of_append (wellFormed_utf8 "var(") hformed
  obtain ⟨hname, -⟩ := wellFormed_around (by decide) (wellFormed_utf8 ")") hrest
  refine trim_append hname ?_
  simp only [isBare, startsWith, isPrefixOf_iff_prefix] at hbare
  obtain ⟨rest, rfl⟩ := hbare
  have hdashes : utf8 "--" = [hyphen, hyphen] := by decide
  rw [hdashes, cons_append, chars_ascii (by decide)]
  rfl

/-- The comments of a reference that does not end in one stand in what it refers to, and in what is
left of that when it is trimmed. -/
theorem inOrder_referent (hreference : isReference value = true)
    (hbare : isBare (referent value) = true) (hformed : wellFormed value = true)
    (hends : (dialect.marks value).endsMarked = false)
    (hslash : ∀ run ∈ dialect.comments value, run.getLast? = some slash) :
    InOrder (dialect.comments value) (trim (referent value)) := by
  have hvalue := referTo_referent hreference
  generalize referent value = inner at hbare hvalue ⊢
  subst hvalue
  obtain ⟨blanks, hblanks, hinner⟩ := trim_of_isBare hbare hformed
  rw [Dialect.comments, Dialect.marks, marks_append, marks_append] at hslash ⊢
  rw [Dialect.marks, marks_append, marks_append] at hends
  generalize hmiddle : Scan.marksUntil dialect _ _ inner = middle at hslash hends ⊢
  have hopening : ∀ mark ∈ Scan.start.marksUntil dialect (inner ++ utf8 ")").head? (utf8 "var("),
      mark.2 = false := by
    exact unmarked_of_slash_notMem (by decide) rfl _
  have hclosing : ∀ (scan : Scan) (front : Marked),
      (front ++ scan.marks dialect (utf8 ")")).endsMarked = false →
        ∀ mark ∈ scan.marks dialect (utf8 ")"), mark.2 = false := by
    intro scan front hfront mark hmark
    obtain rfl := mem_singleton.mp hmark
    rwa [show scan.marks dialect (utf8 ")") = [_] from rfl, Marked.endsMarked,
      getLast?_concat] at hfront
  rw [← append_assoc] at hends
  rw [runs_unmarked_append hopening, runs_append_unmarked (hclosing _ _ hends)] at hslash ⊢
  -- The blanks at the end hold no slash, so they are not in a comment.
  have hmarks : middle.map Prod.fst = inner := by
    rw [← hmiddle, map_fst_marksUntil]
  have hfront : (middle.take (trim inner).length).map Prod.fst = trim inner := by
    rw [map_take, hmarks]
    conv => lhs; arg 2; rw [hinner]
    rw [take_left]
  have hback : ∀ mark ∈ middle.drop (trim inner).length, mark.1 ≠ slash := by
    intro mark hmem heq
    have hbyte := mem_map_of_mem (f := Prod.fst) hmem
    rw [map_drop, hmarks] at hbyte
    conv at hbyte => arg 1; arg 2; rw [hinner]
    rw [drop_left, heq] at hbyte
    exact absurd (hblanks _ (mem_of_mem_ofChars (by decide) hbyte)) (by decide)
  rw [← take_append_drop (trim inner).length middle] at hslash ⊢
  rw [runs_append_unmarked (unmarked_of_getLast hslash hback)]
  have horder := inOrder_runs (middle.take (trim inner).length)
  rwa [hfront] at horder

/-- A part in a new form keeps the comments of the part. -/
theorem inOrder_fitForm {part replacement : Text} (h : Keeps dialect part replacement)
    (hformed : wellFormed part = true) (hends : (dialect.marks part).endsMarked = false)
    (hslash : ∀ run ∈ dialect.comments part, run.getLast? = some slash) :
    InOrder (dialect.comments part) (fitForm part replacement) := by
  rw [← h.comments] at hslash ⊢
  have hplace := dialect.inOrder_comments replacement
  unfold fitForm
  split
  · exact (hplace.append_left (utf8 "var(")).append_right (utf8 ")")
  · split
    next hunwrap =>
      simp only [Bool.and_eq_true] at hunwrap
      obtain ⟨⟨⟨-, hreference⟩, hbare⟩, -⟩ := hunwrap
      exact inOrder_referent hreference hbare (h.formed hformed) (h.ends.trans hends) hslash
    · exact hplace

/-- A plain value that is rebuilt from parts with their comments has its own comments in their
order. -/
theorem inOrder_rebuild (hdialect : dialect ≠ .script) {value : Text}
    (hplain : isPlain dialect value) {replacements : List (Nat × Text)}
    (h : ∀ item ∈ (codeParts dialect value).zipIdx, ∀ replacement,
      replacements.lookup item.2 = some replacement →
        Keeps dialect (item.1.slice value) replacement) :
    InOrder (dialect.comments value) (rebuild dialect value replacements) := by
  have hreads : ∀ item ∈ (codeParts dialect value).zipIdx, _ := fun item hmem =>
    reads_of_mem_codeParts hdialect hplain (fst_mem_of_mem_zipIdx hmem)
  have hparts : ∀ item ∈ (codeParts dialect value).zipIdx,
      InOrder (dialect.comments (item.1.slice value))
        (fitted replacements item.2 (item.1.slice value)) := by
    intro item hmem
    obtain ⟨hread, hslash⟩ := hreads item hmem
    unfold fitted
    split
    next replacement hlookup =>
      refine inOrder_fitForm (h item hmem replacement hlookup) ?_ hread.ends hslash
      simp only [isPlain, Bool.and_eq_true, all_eq_true] at hplain
      exact hplain.2 item.1 (fst_mem_of_mem_zipIdx hmem)
    · exact dialect.inOrder_comments _
  have horder := inOrder_around (fun item : Span × Nat => item.1) hparts (dialect.marks value) 0
  have hordered : Span.Ordered (dialect.marks value).length 0
      ((codeParts dialect value).zipIdx.map fun item => item.1) := by
    rw [zipIdx_map_fst, Dialect.marks, length_marks]
    exact codeParts_ordered dialect value
  rw [around_eq_runs hordered, Dialect.marks, map_fst_marks] at horder
  · rw [rebuild_eq_fill]
    exact horder
  · intro item hmem
    obtain ⟨hread, -⟩ := hreads item hmem
    rw [hread.marks]
    exact ⟨hread.order, hread.begins, hread.ends, rfl⟩

end Value

end Restyle
