import Restyle.Proofs.Dialect.Comments
import Restyle.Proofs.Text.Chars
import Restyle.Proofs.Text.Fill

/-!
# Comments as stretches of a text

The comments of a text are the longest stretches of bytes that the scan marks (`Marked.runs`,
`Dialect.comments`). They stand in the text in their order (`Marked.inOrder_runs`), and the comments
of two parts of a text are those of the text if no comment goes over the seam
(`Marked.runs_append`). A text without quotation marks, slashes and the like moves the scan as any
other such text does, wherever it stands outside comments: `Scan.run_unmarked`,
`Scan.unmarked_of_slash_notMem`.
-/

namespace Restyle

open Byte Dialect List Scan

/-! ## Pieces in order -/

/-- The pieces stand in the text, one behind the other. -/
def InOrder : List Text → Text → Prop
  | [], _ => True
  | piece :: later, text => ∃ left right, text = left ++ piece ++ right ∧ InOrder later right

namespace InOrder

variable {pieces : List Text} {text : Text}

theorem append_left (h : InOrder pieces text) (front : Text) : InOrder pieces (front ++ text) := by
  cases pieces with
  | nil => trivial
  | cons piece later =>
    obtain ⟨left, right, rfl, hlater⟩ := h
    exact ⟨front ++ left, right, by simp, hlater⟩

theorem append {pieces' : List Text} {text' : Text} (h : InOrder pieces text)
    (h' : InOrder pieces' text') : InOrder (pieces ++ pieces') (text ++ text') := by
  induction pieces generalizing text with
  | nil => exact h'.append_left text
  | cons piece later ih =>
    obtain ⟨left, right, rfl, hlater⟩ := h
    exact ⟨left, right ++ text', by simp, ih hlater⟩

theorem append_right (h : InOrder pieces text) (back : Text) : InOrder pieces (text ++ back) := by
  have hnil : InOrder [] back := trivial
  simpa using h.append hnil

end InOrder

/-! ## Marked texts -/

/-- A text with a mark for every byte: whether it belongs to a comment. -/
abbrev Marked := List (UInt8 × Bool)

namespace Marked

/-- A byte before stretches, of which the first goes on from it or does not. -/
def extend (byte : UInt8) (goesOn : Bool) (runs : List Text) : List Text :=
  match goesOn, runs with
  | true, run :: others => (byte :: run) :: others
  | _, _ => [byte] :: runs

/-- Whether the first byte is marked. -/
def beginsMarked (text : Marked) : Bool :=
  text.head?.any Prod.snd

/-- Whether the last byte is marked. -/
def endsMarked (text : Marked) : Bool :=
  text.getLast?.any Prod.snd

/-- The stretches of marked bytes, each as long as it can be. -/
def runs : Marked → List Text
  | [] => []
  | (byte, marked) :: rest =>
    if marked then extend byte (beginsMarked rest) (runs rest) else runs rest

/-- Of a text that begins marked the first stretch stands at the start and the others behind it. The
stretches of every text stand in their order. -/
theorem runs_spec (text : Marked) :
    (text.beginsMarked → ∃ run others rest, text.runs = run :: others ∧
      text.map Prod.fst = run ++ rest ∧ InOrder others rest) ∧
    InOrder text.runs (text.map Prod.fst) := by
  induction text with
  | nil => exact ⟨by simp [beginsMarked], trivial⟩
  | cons mark rest ih =>
    obtain ⟨byte, marked⟩ := mark
    obtain ⟨hstretch, horder⟩ := ih
    cases marked with
    | false => exact ⟨by simp [beginsMarked], horder.append_left [byte]⟩
    | true =>
      have hfirst : ∃ run others after, runs ((byte, true) :: rest) = run :: others ∧
          ((byte, true) :: rest).map Prod.fst = run ++ after ∧ InOrder others after := by
        cases hbegins : beginsMarked rest with
        | false => exact ⟨[byte], runs rest, rest.map Prod.fst, by simp [runs, extend, hbegins],
            rfl, horder⟩
        | true =>
          obtain ⟨run, others, after, hruns, htext, hothers⟩ := hstretch hbegins
          exact ⟨byte :: run, others, after, by simp [runs, extend, hbegins, hruns],
            by simp [htext], hothers⟩
      obtain ⟨run, others, after, hruns, htext, hothers⟩ := hfirst
      exact ⟨fun _ => ⟨run, others, after, hruns, htext, hothers⟩,
        hruns ▸ ⟨[], after, htext, hothers⟩⟩

theorem inOrder_runs (text : Marked) : InOrder text.runs (text.map Prod.fst) :=
  (runs_spec text).2

variable {left right text : Marked}

theorem runs_append (h : left.endsMarked = false ∨ right.beginsMarked = false) :
    runs (left ++ right) = runs left ++ runs right := by
  induction left with
  | nil => rfl
  | cons mark rest ih =>
    obtain ⟨byte, marked⟩ := mark
    cases rest with
    | nil =>
      cases marked with
      | false => rfl
      | true =>
        have hbegins : right.beginsMarked = false := h.resolve_left (by simp [endsMarked])
        simp only [cons_append, nil_append, runs, if_true, hbegins]
        rfl
    | cons next rest =>
      have hends : endsMarked ((byte, marked) :: next :: rest) = endsMarked (next :: rest) := by
        simp [endsMarked]
      rw [hends] at h
      have hbegins : beginsMarked (next :: rest ++ right) = beginsMarked (next :: rest) := rfl
      rw [cons_append, runs, runs, hbegins, ih h]
      cases marked with
      | false => rfl
      | true =>
        simp only [if_true]
        cases hnext : beginsMarked (next :: rest) with
        | false => rfl
        | true =>
          -- The stretch that the byte begins is the first of the left part.
          obtain ⟨run, others, -, hruns, -, -⟩ := (runs_spec (next :: rest)).1 hnext
          rw [hruns]
          rfl

/-- A byte in front of stretches leaves the end of each as it was. -/
theorem exists_mem_extend {byte last : UInt8} {goesOn : Bool} {runs : List Text} {run : Text}
    (hrun : run ∈ runs) (hlast : run.getLast? = some last) :
    ∃ run' ∈ extend byte goesOn runs, run'.getLast? = some last := by
  cases goesOn with
  | false => exact ⟨run, mem_cons_of_mem _ hrun, hlast⟩
  | true =>
    cases runs with
    | nil => cases hrun
    | cons first others =>
      rcases mem_cons.mp hrun with rfl | hrun
      · exact ⟨byte :: run, mem_cons_self, by rw [getLast?_cons, hlast]; rfl⟩
      · exact ⟨run, mem_cons_of_mem _ hrun, hlast⟩

theorem exists_run_concat (text : Marked) (byte : UInt8) :
    ∃ run ∈ runs (text ++ [(byte, true)]), run.getLast? = some byte := by
  induction text with
  | nil => exact ⟨[byte], mem_cons_self, rfl⟩
  | cons mark rest ih =>
    obtain ⟨first, marked⟩ := mark
    obtain ⟨run, hrun, hlast⟩ := ih
    rw [cons_append, runs]
    split
    · exact exists_mem_extend hrun hlast
    · exact ⟨run, hrun, hlast⟩

/-- If all stretches end with a byte, the end of the text behind the last such byte is unmarked. -/
theorem unmarked_of_getLast {last : UInt8}
    (h : ∀ run ∈ runs (left ++ right), run.getLast? = some last)
    (hright : ∀ mark ∈ right, mark.1 ≠ last) : ∀ mark ∈ right, mark.2 = false := by
  -- From the end of the text to its start: a marked byte would end a stretch.
  induction hlength : right.length generalizing right with
  | zero =>
    obtain rfl := length_eq_zero_iff.mp hlength
    intro mark hmark
    cases hmark
  | succ length ih =>
    rcases eq_nil_or_concat right with rfl | ⟨front, mark, rfl⟩
    · cases hlength
    · rw [concat_eq_append] at h hright hlength ⊢
      obtain ⟨byte, marked⟩ := mark
      have hbyte : byte ≠ last := hright (byte, marked) (by simp)
      have hmark : marked = false := by
        cases marked with
        | false => rfl
        | true =>
          obtain ⟨run, hrun, hlast⟩ := exists_run_concat (left ++ front) byte
          rw [append_assoc] at hrun
          rw [h run hrun, Option.some.injEq] at hlast
          exact absurd hlast.symm hbyte
      subst hmark
      rw [← append_assoc, runs_append (.inr rfl), runs, runs, if_neg (by simp), append_nil] at h
      have hfront := ih h (fun mark hmem => hright mark (mem_append_left _ hmem))
        (by simpa using hlength)
      simpa [or_imp, forall_and] using hfront

theorem runs_of_unmarked (h : ∀ mark ∈ text, mark.2 = false) : text.runs = [] := by
  induction text with
  | nil => rfl
  | cons mark rest ih =>
    obtain ⟨hmark, hrest⟩ := forall_mem_cons.mp h
    rw [runs, hmark, if_neg (by simp), ih hrest]

theorem endsMarked_of_unmarked (h : ∀ mark ∈ text, mark.2 = false) : text.endsMarked = false := by
  unfold endsMarked
  cases hlast : text.getLast? with
  | none => rfl
  | some mark => simp [h mark (mem_of_getLast? hlast)]

theorem runs_append_unmarked (h : ∀ mark ∈ right, mark.2 = false) :
    runs (left ++ right) = runs left := by
  have hbegins : right.beginsMarked = false := by
    unfold beginsMarked
    cases hfirst : right.head? with
    | none => rfl
    | some mark => simp [h mark (mem_of_head? hfirst)]
  rw [runs_append (.inr hbegins), runs_of_unmarked h, append_nil]

theorem runs_unmarked_append (h : ∀ mark ∈ left, mark.2 = false) :
    runs (left ++ right) = runs right := by
  rw [runs_append (.inl (endsMarked_of_unmarked h)), runs_of_unmarked h, nil_append]

/-- Two parts of a text with something unmarked between them, which ends no stretch but its
own. -/
theorem runs_around {middle : Marked} (hne : middle ≠ []) (h : ∀ mark ∈ middle, mark.2 = false) :
    runs (left ++ (middle ++ right)) = runs left ++ runs right ∧
      endsMarked (left ++ (middle ++ right)) = endsMarked right := by
  obtain ⟨mark, middle', rfl⟩ := exists_cons_of_ne_nil hne
  have hmark : mark.2 = false := h mark mem_cons_self
  constructor
  · have hbegins : beginsMarked (mark :: middle' ++ right) = false := by
      simp [beginsMarked, hmark]
    rw [runs_append (.inr hbegins), runs_unmarked_append h]
  · have hends := endsMarked_of_unmarked h
    unfold endsMarked at hends ⊢
    rw [getLast?_append, getLast?_append]
    cases hlast : right.getLast? with
    | none =>
      rw [Option.none_or, getLast?_eq_some_getLast hne, Option.some_or]
      rwa [getLast?_eq_some_getLast hne] at hends
    | some last => rfl

/-- The part of a marked text that a span covers. -/
def slice (span : Span) (text : Marked) : Marked :=
  (text.drop span.start).take (span.stop - span.start)

/-- The stretches between spans that follow one another, with others in the place of the spans. -/
def around (text : Marked) (offset : Nat) : List (Span × List Text) → List Text
  | [] => runs (text.drop offset)
  | (span, inner) :: later =>
    runs (slice ⟨offset, span.start⟩ text) ++ inner ++ around text span.stop later

/-- If new texts for spans hold pieces in their order, the text with the new texts filled in holds
the stretches between the spans and the pieces in their order. -/
theorem inOrder_around {α : Type} {items : List α} (span : α → Span) {inner : α → List Text}
    {new : α → Text} (h : ∀ item ∈ items, InOrder (inner item) (new item)) (text : Marked)
    (offset : Nat) :
    InOrder (text.around offset (items.map fun item => (span item, inner item)))
      (Text.fill (text.map Prod.fst) offset (items.map fun item => (span item, new item))) := by
  induction items generalizing offset with
  | nil =>
    have hrest := inOrder_runs (text.drop offset)
    rwa [map_drop] at hrest
  | cons item items ih =>
    obtain ⟨hitem, hitems⟩ := forall_mem_cons.mp h
    have hgap := inOrder_runs (text.slice ⟨offset, (span item).start⟩)
    rw [slice, map_take, map_drop] at hgap
    exact (hgap.append hitem).append (ih hitems (span item).stop)

/-- Spans that hold something and begin and end unmarked hold the stretches that the text has
there. -/
theorem around_eq_runs {α : Type} {items : List α} {span : α → Span} {inner : α → List Text}
    {offset : Nat} (hordered : Span.Ordered text.length offset (items.map span))
    (h : ∀ item ∈ items, (span item).start < (span item).stop ∧
      (text.slice (span item)).beginsMarked = false ∧
      (text.slice (span item)).endsMarked = false ∧ inner item = (text.slice (span item)).runs) :
    text.around offset (items.map fun item => (span item, inner item)) =
      runs (text.drop offset) := by
  induction items generalizing offset with
  | nil => rfl
  | cons item items ih =>
    obtain ⟨⟨horder, hbegins, hends, hinner⟩, hitems⟩ := forall_mem_cons.mp h
    obtain ⟨hstart, -, hlater⟩ := hordered
    have hstop := hlater.offset_le
    have hsplit : text.drop offset = text.slice ⟨offset, (span item).start⟩ ++
        (text.slice (span item) ++ text.drop (span item).stop) := by
      have hinside := take_append_drop ((span item).stop - (span item).start)
        (text.drop (span item).start)
      rw [drop_drop, show (span item).start + ((span item).stop - (span item).start) =
        (span item).stop by omega] at hinside
      have hbefore := take_append_drop ((span item).start - offset) (text.drop offset)
      rw [drop_drop, show offset + ((span item).start - offset) = (span item).start by
        omega] at hbefore
      rw [slice, slice, hinside, hbefore]
    have hnonempty : text.slice (span item) ≠ [] := by
      intro hnil
      have hlength := congrArg length hnil
      rw [slice, length_take, length_drop, length_nil] at hlength
      omega
    obtain ⟨first, others, hfirst⟩ := exists_cons_of_ne_nil hnonempty
    have hseam : beginsMarked (text.slice (span item) ++ text.drop (span item).stop) = false := by
      rw [hfirst] at hbegins ⊢
      exact hbegins
    rw [map_cons, around, ih hlater hitems, hsplit, runs_append (.inr hseam),
      runs_append (.inl hends), hinner, append_assoc]

end Marked

/-! ## The comments of a text -/

namespace Scan

variable (dialect : Dialect) (scan : Scan) (ahead : Option UInt8) (text : Text)

/-- The text as the scan marks it, read from a state. -/
def marks : Marked :=
  text.zip (scan.comments dialect text)

/-- The text as the scan marks it, read from a state and with a byte behind it. -/
def marksUntil : Marked :=
  text.zip (scan.commentsUntil dialect ahead text)

theorem marks_cons (byte : UInt8) (rest : Text) :
    scan.marks dialect (byte :: rest) =
      (byte, inComment scan (scan.next dialect byte rest.head?)) ::
        (scan.next dialect byte rest.head?).marks dialect rest :=
  rfl

/-- A marked byte and the marks behind it, up to another byte. -/
theorem marksUntil_cons (byte : UInt8) (rest : Text) :
    scan.marksUntil dialect ahead (byte :: rest) =
      (byte, inComment scan (scan.next dialect byte (rest.head?.or ahead))) ::
        (scan.next dialect byte (rest.head?.or ahead)).marksUntil dialect ahead rest :=
  rfl

theorem marksUntil_none : scan.marksUntil dialect none text = scan.marks dialect text := by
  induction text generalizing scan with
  | nil => rfl
  | cons byte rest ih => rw [marksUntil_cons, marks_cons, Option.or_none, ih]

theorem marks_append (left right : Text) :
    scan.marks dialect (left ++ right) = scan.marksUntil dialect right.head? left ++
      (scan.run dialect right.head? left).marks dialect right := by
  unfold marks marksUntil
  rw [comments_append, zip_append (by rw [length_commentsUntil])]

theorem length_marks : (scan.marks dialect text).length = text.length := by
  rw [marks, length_zip, length_comments, Nat.min_self]

theorem length_marksUntil : (scan.marksUntil dialect ahead text).length = text.length := by
  rw [marksUntil, length_zip, length_commentsUntil, Nat.min_self]

/-- The comments on both sides of something that stands outside comments. -/
theorem runs_marks_around {left middle right : Text} (hne : middle ≠ [])
    (h : ∀ mark ∈ (scan.run dialect (middle ++ right).head? left).marksUntil dialect right.head?
      middle, mark.2 = false) :
    (scan.marks dialect (left ++ (middle ++ right))).runs =
        (scan.marksUntil dialect (middle ++ right).head? left).runs ++
          (((scan.run dialect (middle ++ right).head? left).run dialect right.head? middle).marks
            dialect right).runs ∧
      (scan.marks dialect (left ++ (middle ++ right))).endsMarked =
        (((scan.run dialect (middle ++ right).head? left).run dialect right.head? middle).marks
          dialect right).endsMarked := by
  rw [marks_append, marks_append]
  refine Marked.runs_around (fun hnil => hne ?_) h
  have hlength := congrArg length hnil
  rw [length_marksUntil] at hlength
  exact length_eq_zero_iff.mp hlength

theorem map_fst_marks : (scan.marks dialect text).map Prod.fst = text :=
  map_fst_zip (Nat.le_of_eq (length_comments ..).symm)

theorem map_fst_marksUntil : (scan.marksUntil dialect ahead text).map Prod.fst = text :=
  map_fst_zip (Nat.le_of_eq (length_commentsUntil ..).symm)

/-- Where the scan stands after so many bytes of a text. -/
def stateAt (count : Nat) : Scan :=
  scan.run dialect (text.drop count).head? (text.take count)

/-- What is left of a byte when comments are blanked. -/
def shown (byte : UInt8) (ahead : Option UInt8) : UInt8 :=
  if inComment scan (scan.next dialect byte ahead) then blankByte byte else byte

theorem stateAt_succ (byte : UInt8) (rest : Text) (count : Nat) :
    scan.stateAt dialect (byte :: rest) (count + 1) =
      (scan.next dialect byte rest.head?).stateAt dialect rest count := by
  have hhead : (rest.take count).head?.or (rest.drop count).head? = rest.head? := by
    rw [← head?_append, take_append_drop]
  rw [stateAt, drop_succ_cons, take_succ_cons, run, hhead, stateAt]

theorem drop_stripFrom (count : Nat) :
    (dialect.stripFrom scan text).drop count =
      dialect.stripFrom (scan.stateAt dialect text count) (text.drop count) := by
  induction count generalizing scan text with
  | zero => rfl
  | succ count ih =>
    cases text with
    | nil => rfl
    | cons byte rest =>
      rw [stripFrom_cons, drop_succ_cons, drop_succ_cons, ih, stateAt_succ]

variable {dialect scan ahead text} {byte : UInt8} {index : Nat}

/-- The mark of a byte is given by where the scan stands before it. -/
theorem inComment_of_marks {mark : Bool}
    (h : (scan.marks dialect text)[index]? = some (byte, mark)) :
    ∃ ahead, inComment (scan.stateAt dialect text index)
      ((scan.stateAt dialect text index).next dialect byte ahead) = mark := by
  induction text generalizing scan index with
  | nil => cases h
  | cons first rest ih =>
    rw [marks_cons] at h
    cases index with
    | zero =>
      rw [getElem?_cons_zero, Option.some.injEq, Prod.mk.injEq] at h
      obtain ⟨rfl, hmark⟩ := h
      exact ⟨rest.head?, hmark⟩
    | succ index =>
      rw [stateAt_succ]
      exact ih h

/-- A byte of a comment is shown as a blank. -/
theorem shown_of_inComment (h : inComment scan (scan.next dialect byte ahead)) :
    scan.shown dialect byte ahead = space ∨ scan.shown dialect byte ahead = newline := by
  rw [shown, if_pos h]
  exact (blankByte_cases byte).symm

/-- A byte that is shown as no blank does not belong to a comment. -/
theorem unmarked_of_shown
    (h : scan.shown dialect byte ahead ≠ space ∧ scan.shown dialect byte ahead ≠ newline) :
    inComment scan (scan.next dialect byte ahead) = false ∧
      scan.shown dialect byte ahead = byte := by
  cases hmark : inComment scan (scan.next ..) with
  | true => exact ((shown_of_inComment hmark).elim h.1 h.2).elim
  | false => exact ⟨rfl, by rw [shown, hmark, if_neg (by simp)]⟩

/-- A byte that is shown as no blank stands outside comments. -/
theorem marks_of_shown
    (hbyte : (dialect.stripFrom scan text)[index]? = some byte) (hspace : byte ≠ space)
    (hnewline : byte ≠ newline) : (scan.marks dialect text)[index]? = some (byte, false) := by
  induction text generalizing scan index with
  | nil => cases hbyte
  | cons first rest ih =>
    rw [stripFrom_cons] at hbyte
    rw [marks_cons]
    cases index with
    | zero =>
      have hshown : scan.shown dialect first rest.head? = byte := Option.some.inj hbyte
      obtain ⟨hmark, hfirst⟩ := @unmarked_of_shown dialect scan rest.head? first
        (by rw [hshown]; exact ⟨hspace, hnewline⟩)
      rw [getElem?_cons_zero, hmark, ← hfirst, hshown]
    | succ index => exact ih hbyte

end Scan

namespace Dialect

variable (dialect : Dialect) (text : Text)

/-- The text with its comments marked. -/
def marks : Marked :=
  start.marks dialect text

/-- The comments of a text, each with what opens and closes it. -/
def comments : List Text :=
  (dialect.marks text).runs

theorem inOrder_comments : InOrder (dialect.comments text) text := by
  have horder := (dialect.marks text).inOrder_runs
  rwa [marks, map_fst_marks] at horder

/-- What is shown without blanks is no comment. -/
theorem slice_stripComments {dialect : Dialect} {text : Text} {span : Span}
    (h : ∀ byte ∈ span.slice (dialect.stripComments text),
      byte ≠ space ∧ byte ≠ newline) :
    span.slice text = span.slice (dialect.stripComments text) := by
  have hlength : (dialect.stripComments text).length = text.length :=
    length_stripFrom dialect start text
  refine ext_getElem? fun index => ?_
  cases hshown : (span.slice (dialect.stripComments text))[index]? with
  | none =>
    rw [List.getElem?_eq_none_iff, Span.slice, length_take, length_drop] at hshown ⊢
    rwa [hlength] at hshown
  | some byte =>
    obtain ⟨hspace, hnewline⟩ := h byte (mem_of_getElem? hshown)
    rw [Span.slice, getElem?_take] at hshown ⊢
    split at hshown
    next hlt =>
      rw [getElem?_drop] at hshown
      have hmarks := congrArg (Option.map Prod.fst) (marks_of_shown hshown hspace hnewline)
      rw [← getElem?_map, map_fst_marks] at hmarks
      rw [if_pos hlt, getElem?_drop]
      exact hmarks
    · cases hshown

end Dialect

/-! ## What the scan does not tell apart -/

namespace Scan

/-- The scan goes on alike from both states: the depth of parentheses counts in SCSS only. -/
structure Alike (dialect : Dialect) (left right : Scan) : Prop where
  mode : left.mode = right.mode
  depth : dialect = .scss → left.depth = right.depth

variable {dialect : Dialect} {scan scan' : Scan} {ahead : Option UInt8} {byte : UInt8} {text : Text}

theorem Alike.next (h : Alike dialect scan scan') (byte : UInt8) (ahead : Option UInt8) :
    Alike dialect (scan.next dialect byte ahead) (scan'.next dialect byte ahead) := by
  obtain ⟨mode, depth⟩ := scan
  obtain ⟨mode', depth'⟩ := scan'
  obtain ⟨hmode, hdepth⟩ := h
  simp only at hmode hdepth
  subst hmode
  have hopens : dialect.opensLineComment depth = dialect.opensLineComment depth' := by
    cases dialect with
    | css | script => rfl
    | scss => rw [hdepth rfl]
  cases mode with
  | code =>
    refine ⟨by simp only [Scan.next, codeNext, hopens], fun hscss => ?_⟩
    simp only [Scan.next, hdepth hscss]
  | comment | lineComment =>
    simp only [Scan.next]
    split <;> exact ⟨rfl, hdepth⟩
  | literal | escape | commentOpening | commentClosing => exact ⟨rfl, hdepth⟩

/-- Whether a byte belongs to a comment depends on the modes only. -/
theorem Alike.inComment {after after' : Scan} (h : Alike dialect scan scan')
    (hafter : Alike dialect after after') : inComment scan after = inComment scan' after' := by
  simp only [Scan.inComment, h.mode, hafter.mode]

theorem Alike.run (h : Alike dialect scan scan') (ahead : Option UInt8) (text : Text) :
    Alike dialect (scan.run dialect ahead text) (scan'.run dialect ahead text) := by
  induction text generalizing scan scan' with
  | nil => exact h
  | cons byte rest ih => exact ih (h.next ..)

theorem Alike.marksUntil (h : Alike dialect scan scan') (ahead : Option UInt8) (text : Text) :
    scan.marksUntil dialect ahead text = scan'.marksUntil dialect ahead text := by
  induction text generalizing scan scan' with
  | nil => rfl
  | cons byte rest ih =>
    have hnext := h.next byte (rest.head?.or ahead)
    rw [marksUntil_cons, marksUntil_cons, h.inComment hnext, ih hnext]

theorem Alike.marks (h : Alike dialect scan scan') (text : Text) :
    scan.marks dialect text = scan'.marks dialect text := by
  rw [← marksUntil_none, ← marksUntil_none, h.marksUntil]

/-- Whether the scan stands outside comments. -/
def isOutside (scan : Scan) : Bool :=
  match scan.mode with
  | .code | .literal _ | .escape _ => true
  | .commentOpening | .comment | .commentClosing | .lineComment => false

theorem Alike.isOutside (h : Alike dialect scan scan') : scan.isOutside = scan'.isOutside := by
  simp only [Scan.isOutside, h.mode]

/-- Whether a byte ahead can neither open nor close a comment with the byte before it. -/
def isHarmless (ahead : Option UInt8) : Bool :=
  ahead != some slash && ahead != some asterisk

/-- A byte of code outside comments leads into a literal or on in code. -/
theorem codeNext_of_unmarked {depth : Nat}
    (h : inComment ⟨.code, depth⟩ ((mk .code depth).next dialect byte ahead) = false) :
    codeNext dialect depth byte ahead = if dialect.isQuote byte then .literal byte else .code := by
  rcases codeNext_cases dialect depth byte ahead with hnext | ⟨-, ⟨hnext, -⟩ | ⟨hnext, -⟩⟩
  · exact hnext
  all_goals simp [inComment, Scan.next, hnext] at h

/-- A byte that leads out of comments leads to the same place whatever harmless byte follows. -/
theorem next_of_isHarmless {ahead' : Option UInt8}
    (h : (scan.next dialect byte ahead).isOutside) (hahead : isHarmless ahead') :
    scan.next dialect byte ahead' = scan.next dialect byte ahead := by
  obtain ⟨mode, depth⟩ := scan
  obtain ⟨hslash, hasterisk⟩ : (ahead' == some slash) = false ∧
      (ahead' == some asterisk) = false := by
    simpa [isHarmless] using hahead
  cases mode with
  | code =>
    have hcode : codeNext dialect depth byte ahead' =
        if dialect.isQuote byte then .literal byte else .code := by
      simp [codeNext, hslash, hasterisk]
    rcases codeNext_cases dialect depth byte ahead with hnext | ⟨-, ⟨hnext, -⟩ | ⟨hnext, -⟩⟩
    · simp only [Scan.next, hcode, hnext]
    all_goals simp [Scan.next, hnext, isOutside] at h
  | comment =>
    simp only [Scan.next] at h
    split at h <;> cases h
  | literal | escape | commentOpening | commentClosing | lineComment => rfl

/-- A text that leads out of comments is read in the same way whatever harmless byte follows. -/
theorem run_of_isHarmless {ahead' : Option UInt8}
    (h : (scan.run dialect ahead text).isOutside) (hahead : isHarmless ahead') :
    scan.run dialect ahead' text = scan.run dialect ahead text ∧
      scan.marksUntil dialect ahead' text = scan.marksUntil dialect ahead text := by
  induction text generalizing scan with
  | nil => exact ⟨rfl, rfl⟩
  | cons byte rest ih =>
    rw [run] at h
    have hnext : scan.next dialect byte (rest.head?.or ahead') =
        scan.next dialect byte (rest.head?.or ahead) := by
      cases rest with
      | nil => exact next_of_isHarmless h hahead
      | cons next rest => rfl
    obtain ⟨hrun, hmarks⟩ := ih h
    rw [run, run, marksUntil_cons, marksUntil_cons, hnext, hrun, hmarks]
    exact ⟨rfl, rfl⟩

theorem isOutside_next (h : inComment scan (scan.next dialect byte ahead) = false) :
    (scan.next dialect byte ahead).isOutside := by
  obtain ⟨mode, depth⟩ := scan
  cases mode with
  | code =>
    have hnext := codeNext_of_unmarked h
    cases hquote : dialect.isQuote byte <;> simp [Scan.next, isOutside, hnext, hquote]
  | literal quote =>
    simp only [Scan.next, literalNext]
    split
    · rfl
    · split <;> rfl
  | escape => rfl
  | commentOpening | comment | commentClosing => cases h
  | lineComment =>
    simp only [Scan.next] at h ⊢
    split at h
    next hnewline => rw [if_pos hnewline]; rfl
    · cases h

/-- A text that does not end in a comment does not lead into one. -/
theorem isOutside_run (hne : text ≠ [])
    (h : (scan.marksUntil dialect ahead text).endsMarked = false) :
    (scan.run dialect ahead text).isOutside := by
  induction text generalizing scan with
  | nil => exact absurd rfl hne
  | cons byte rest ih =>
    rw [marksUntil_cons] at h
    cases rest with
    | nil => exact isOutside_next (by simpa [Marked.endsMarked, marksUntil] using h)
    | cons next rest =>
      refine ih (cons_ne_nil next rest) ?_
      rwa [marksUntil_cons, Marked.endsMarked, getLast?_cons_cons] at h

/-- What stands behind a text that does not end in a comment makes no difference to its marks. -/
theorem marksUntil_of_ends (h : (scan.marksUntil dialect ahead text).endsMarked = false) :
    scan.marksUntil dialect ahead text = scan.marks dialect text := by
  by_cases hne : text = []
  · subst hne
    rfl
  · rw [← marksUntil_none]
    exact (run_of_isHarmless (isOutside_run hne h) rfl).2.symm

end Scan

/-! ## Spans that are read by themselves as in the text -/

/-- The text of the span has by itself, in its own dialect, the comments that it has in the whole
text, and it neither begins nor ends in one. -/
structure Dialect.Reads (dialect inner : Dialect) (text : Text) (span : Span) : Prop where
  order : span.start < span.stop
  bound : span.stop ≤ text.length
  marks : (dialect.marks text).slice span = inner.marks (span.slice text)
  begins : (inner.marks (span.slice text)).beginsMarked = false
  ends : (inner.marks (span.slice text)).endsMarked = false

theorem Dialect.stripFrom_eq_map (dialect : Dialect) (scan : Scan) (text : Text) :
    dialect.stripFrom scan text =
      (scan.marks dialect text).map fun mark => if mark.2 then blankByte mark.1 else mark.1 := by
  rw [stripFrom, Scan.marks, map_zip_eq_zipWith]
  rfl

theorem Dialect.stripComments_eq_map (dialect : Dialect) (text : Text) :
    dialect.stripComments text =
      (dialect.marks text).map fun mark => if mark.2 then blankByte mark.1 else mark.1 :=
  dialect.stripFrom_eq_map start text

variable {dialect : Dialect} {depth : Nat} {text : Text}

/-- A text that is read by itself as in the whole text has its comments blanked as there. -/
theorem Dialect.Reads.slice_stripComments {inner : Dialect} {span : Span}
    (h : dialect.Reads inner text span) :
    span.slice (dialect.stripComments text) = inner.stripComments (span.slice text) := by
  rw [stripComments_eq_map, stripComments_eq_map, ← h.marks, Span.slice,
    Marked.slice, map_take, map_drop]

/-- A part of a text before which the scan stands as at its start, and that neither begins nor ends
in a comment. -/
theorem Dialect.reads_of_append {left part right : Text}
    (hscan : (start.run dialect (part ++ right).head? left).Alike dialect start)
    (hne : part ≠ [])
    (hbegins : (start.marksUntil dialect right.head? part).beginsMarked = false)
    (hends : (start.marksUntil dialect right.head? part).endsMarked = false) :
    dialect.Reads dialect (left ++ (part ++ right)) ⟨left.length, left.length + part.length⟩ := by
  have hpositive : 0 < part.length := length_pos_iff.mpr hne
  have hslice : (Span.mk left.length (left.length + part.length)).slice (left ++ (part ++ right)) =
      part := by
    simp [Span.slice]
  have hmarks : start.marksUntil dialect right.head? part = dialect.marks part :=
    marksUntil_of_ends hends
  rw [hmarks] at hbegins hends
  refine ⟨by simpa using hpositive, by simp, ?_, by rwa [hslice], by rwa [hslice]⟩
  rw [hslice, Dialect.marks, marks_append, marks_append, hscan.marksUntil, hmarks,
    Marked.slice, drop_left' (length_marksUntil ..), Nat.add_sub_cancel_left]
  exact take_left' (length_marks dialect start part)

/-- A span of a text before which the scan stands as at its start, and that neither begins nor ends
in a comment. -/
theorem Dialect.reads_of_stateAt {span : Span} {first last : UInt8}
    (horder : span.start < span.stop) (hbound : span.stop ≤ text.length)
    (hscan : (Scan.start.stateAt dialect text span.start).Alike dialect Scan.start)
    (hfirst : (dialect.marks text)[span.start]? = some (first, false))
    (hlast : (dialect.marks text)[span.stop - 1]? = some (last, false)) :
    dialect.Reads dialect text span := by
  obtain ⟨start, stop⟩ := span
  simp only at horder hbound hscan hfirst hlast
  have hlength : ((Span.mk start stop).slice text).length = stop - start := Span.length_slice hbound
  have hleft : (text.take start).length = start := length_take_of_le (by omega)
  have hrest := Text.slice_append_drop (Nat.le_of_lt horder) text
  have htext : text.take start ++ ((Span.mk start stop).slice text ++ text.drop stop) = text := by
    rw [hrest, take_append_drop]
  have hstop : start + (stop - start) = stop := by omega
  rw [Scan.stateAt, ← hrest] at hscan
  -- Both ends of the span are bytes of the part in the middle.
  have hmiddle : ∀ {index}, start ≤ index → index < stop → (dialect.marks text)[index]? =
      (Scan.start.marksUntil dialect (text.drop stop).head?
        ((Span.mk start stop).slice text))[index - start]? := by
    intro index hstart hindex
    rw [← hscan.marksUntil, Dialect.marks, ← htext, marks_append, marks_append, htext,
      getElem?_append_right (by rw [length_marksUntil, hleft]; exact hstart), length_marksUntil,
      hleft, getElem?_append_left (by rw [length_marksUntil, hlength]; omega)]
  have hreads := reads_of_append hscan (fun hnil => ?_) ?_ ?_
  · rwa [htext, hleft, hlength, hstop] at hreads
  · rw [hnil, length_nil] at hlength
    omega
  · rw [hmiddle (Nat.le_refl start) horder, Nat.sub_self] at hfirst
    rw [Marked.beginsMarked, head?_eq_getElem?, hfirst]
    rfl
  · rw [hmiddle (by omega) (by omega)] at hlast
    rw [Marked.endsMarked, getLast?_eq_getElem?, length_marksUntil, hlength,
      show stop - start - 1 = stop - 1 - start by omega, hlast]
    rfl

namespace Scan

variable {dialect : Dialect} {scan scan' : Scan} {ahead : Option UInt8} {byte : UInt8}

/-- A comment that begins outside comments begins with a slash. -/
theorem slash_of_inComment (houtside : scan.isOutside)
    (h : inComment scan (scan.next dialect byte ahead)) : byte = slash := by
  obtain ⟨mode, depth⟩ := scan
  cases mode with
  | code =>
    rcases codeNext_cases dialect depth byte ahead with hnext | ⟨hslash, -⟩
    · cases hquote : dialect.isQuote byte <;> simp [inComment, Scan.next, hnext, hquote] at h
    · exact hslash
  | literal | escape => cases h
  | commentOpening | comment | commentClosing | lineComment => cases houtside

/-- Of the bytes of a comment only a line feed is shown. -/
theorem newline_of_unmarked (hscan : scan.isOutside = false)
    (h : inComment scan (scan.next dialect byte ahead) = false) : byte = newline := by
  obtain ⟨mode, depth⟩ := scan
  cases mode with
  | code | literal | escape => cases hscan
  | commentOpening | comment | commentClosing => cases h
  | lineComment =>
    simp only [inComment, Scan.next] at h
    split at h
    next hnewline => exact eq_of_beq hnewline
    · simp at h

/-- A comment changes no depth. -/
theorem depth_of_inComment (h : inComment scan (scan.next dialect byte ahead)) :
    (scan.next dialect byte ahead).depth = scan.depth := by
  obtain ⟨mode, depth⟩ := scan
  cases mode with
  | code =>
    rw [slash_of_inComment rfl h]
    rfl
  | literal | escape => cases h
  | commentOpening | commentClosing => rfl
  | comment | lineComment =>
    simp only [Scan.next]
    split <;> rfl

/-- A byte of a comment leads out of it only if it closes it. -/
theorem closing_of_inComment (h : inComment scan (scan.next dialect byte ahead))
    (houtside : (scan.next dialect byte ahead).isOutside) : scan.mode = .commentClosing := by
  obtain ⟨mode, depth⟩ := scan
  cases mode with
  | code =>
    simp only [inComment, Bool.or_eq_true, beq_iff_eq] at h
    rcases h with h | h <;> simp [isOutside, h] at houtside
  | literal | escape => cases h
  | commentOpening => cases houtside
  | comment =>
    simp only [Scan.next] at houtside
    split at houtside <;> cases houtside
  | commentClosing => rfl
  | lineComment =>
    simp only [inComment, beq_iff_eq] at h
    simp [isOutside, h] at houtside

/-! ## Texts that the scan passes over -/

/-- The open literal has a quotation mark of the dialect. -/
def Sound (dialect : Dialect) (scan : Scan) : Prop :=
  ∀ quote, scan.mode = .literal quote ∨ scan.mode = .escape quote → dialect.isQuote quote

theorem start_sound (dialect : Dialect) : start.Sound dialect := by
  rintro quote (h | h) <;> cases h

theorem Sound.next (h : scan.Sound dialect) (byte : UInt8) (ahead : Option UInt8) :
    (scan.next dialect byte ahead).Sound dialect := by
  intro quote hmode
  rcases quote_of_next hmode with hbefore | ⟨rfl, hquote⟩
  · exact h quote hbefore
  · exact hquote

theorem Sound.run (h : scan.Sound dialect) (ahead : Option UInt8) (text : Text) :
    (scan.run dialect ahead text).Sound dialect := by
  induction text generalizing scan with
  | nil => exact h
  | cons byte rest ih => exact ih (h.next byte _)

theorem Alike.sound (h : Alike dialect scan scan') (hsound : scan.Sound dialect) :
    scan'.Sound dialect :=
  fun quote hmode => hsound quote (h.mode ▸ hmode)

/-- Where the scan stands after a text that opens and closes neither literals nor comments. -/
def pass (scan : Scan) (text : Text) : Scan :=
  match scan.mode with
  | .code => ⟨.code, text.foldl depthNext scan.depth⟩
  | .escape quote => ⟨.literal quote, scan.depth⟩
  | _ => scan

theorem pass_cons (scan : Scan) (byte : UInt8) (rest : Text) :
    (scan.pass [byte]).pass rest = scan.pass (byte :: rest) := by
  obtain ⟨mode, depth⟩ := scan
  cases mode <;> rfl

/-- Whether the byte neither opens, closes nor escapes anything in a literal. -/
def isPassed (dialect : Dialect) (byte : UInt8) : Bool :=
  !dialect.isQuote byte && byte != backslash && byte != newline

/-- In a literal such a byte is passed over. -/
theorem literalNext_of_isPassed {quote : UInt8} (hquote : dialect.isQuote quote)
    (h : isPassed dialect byte) : literalNext quote byte = .literal quote := by
  simp only [isPassed, Bool.and_eq_true, Bool.not_eq_true', bne_iff_ne, ne_eq] at h
  obtain ⟨⟨hbyte, hbackslash⟩, hnewline⟩ := h
  have hne : byte ≠ quote := by
    rintro rfl
    rw [hquote] at hbyte
    cases hbyte
  simp [literalNext, hbackslash, hnewline, hne]

/-- A byte outside comments that opens no literal is passed over. -/
theorem next_of_unmarked (h : scan.Sound dialect) (hbyte : isPassed dialect byte)
    (hmark : inComment scan (scan.next dialect byte ahead) = false) :
    scan.isOutside ∧ scan.next dialect byte ahead = scan.pass [byte] := by
  obtain ⟨mode, depth⟩ := scan
  have hquote : dialect.isQuote byte = false := by
    simp only [isPassed, Bool.and_eq_true, Bool.not_eq_true'] at hbyte
    exact hbyte.1.1
  cases mode with
  | code =>
    refine ⟨rfl, ?_⟩
    simp [Scan.next, codeNext_of_unmarked hmark, hquote, pass]
  | literal quote =>
    refine ⟨rfl, ?_⟩
    simp only [Scan.next, pass, literalNext_of_isPassed (h quote (.inl rfl)) hbyte]
  | escape quote => exact ⟨rfl, rfl⟩
  | commentOpening | comment | commentClosing => cases hmark
  | lineComment =>
    have hnewline : (byte == newline) = false := by
      simp only [isPassed, Bool.and_eq_true, bne_iff_ne, ne_eq] at hbyte
      simpa using hbyte.2
    simp [Scan.next, inComment, hnewline] at hmark

/-- A text outside comments that opens no literal is passed over, and it does not stand in a
comment. -/
theorem run_unmarked (h : scan.Sound dialect) {text : Text} (hne : text ≠ [])
    (htext : ∀ byte ∈ text, isPassed dialect byte)
    (hmarks : ∀ mark ∈ scan.marksUntil dialect ahead text, mark.2 = false) :
    scan.isOutside ∧ scan.run dialect ahead text = scan.pass text := by
  induction text generalizing scan with
  | nil => exact absurd rfl hne
  | cons byte rest ih =>
    obtain ⟨hbyte, hrest⟩ := forall_mem_cons.mp htext
    rw [marksUntil_cons] at hmarks
    obtain ⟨hmark, hmarks⟩ := forall_mem_cons.mp hmarks
    obtain ⟨houtside, hnext⟩ := next_of_unmarked h hbyte hmark
    refine ⟨houtside, ?_⟩
    cases rest with
    | nil => exact hnext
    | cons next rest =>
      obtain ⟨-, hrun⟩ := ih (h.next byte _) (cons_ne_nil _ _) hrest hmarks
      rw [run, hrun, hnext, pass_cons]

end Scan

/-! ## Texts that may take each other's place -/

/-- Whether every parenthesis that is closed in the text was opened in it, at the given depth, and
all are closed in the end. -/
def isBalanced (depth : Nat) : Text → Bool
  | [] => depth == 0
  | byte :: rest =>
    (byte != closeParen || 0 < depth) && isBalanced (depthNext depth byte) rest

/-- A byte that closes no parenthesis from outside changes every depth in the same way. -/
theorem Scan.depthNext_add {byte : UInt8} (h : byte ≠ closeParen ∨ 0 < depth) (more : Nat) :
    depthNext (depth + more) byte = depthNext depth byte + more := by
  simp only [depthNext, beq_iff_eq]
  split
  · omega
  · split
    next hclose => have := h.resolve_left (not_not_intro hclose); omega
    · rfl

theorem isBalanced_cons {byte : UInt8} {rest : Text} :
    isBalanced depth (byte :: rest) ↔
      (byte ≠ closeParen ∨ 0 < depth) ∧ isBalanced (depthNext depth byte) rest := by
  simp [isBalanced]

/-- A balanced text leaves the depth of parentheses as it was. -/
theorem foldl_depthNext_of_isBalanced {depth : Nat} (h : isBalanced depth text) (more : Nat) :
    text.foldl depthNext (depth + more) = more := by
  induction text generalizing depth with
  | nil =>
    have hzero : depth = 0 := by simpa [isBalanced] using h
    simp [hzero]
  | cons byte rest ih =>
    obtain ⟨hbyte, hrest⟩ := isBalanced_cons.mp h
    rw [foldl_cons, depthNext_add hbyte, ih hrest]

theorem isBalanced_append {more : Nat} {left right : Text} (hleft : isBalanced depth left)
    (hright : isBalanced more right) : isBalanced (depth + more) (left ++ right) := by
  induction left generalizing depth with
  | nil =>
    have hzero : depth = 0 := by simpa [isBalanced] using hleft
    simpa [hzero] using hright
  | cons byte rest ih =>
    obtain ⟨hbyte, hrest⟩ := isBalanced_cons.mp hleft
    refine isBalanced_cons.mpr ⟨hbyte.imp id fun hpos => by omega, ?_⟩
    rw [depthNext_add hbyte]
    exact ih hrest

namespace Dialect

/-- Whether a text leaves literals and parentheses as they are. Parentheses count in SCSS only. -/
def isEven (dialect : Dialect) (text : Text) : Bool :=
  text.all (isPassed dialect) && (dialect != .scss || isBalanced 0 text)

/-- Whether a text can also open no comment, neither by itself nor with what stands around it. -/
def isInert (dialect : Dialect) (text : Text) : Bool :=
  dialect.isEven text && !text.isEmpty && text.all fun byte => byte != slash && byte != asterisk

variable {dialect : Dialect} {text : Text}

theorem isPassed_of_isEven (h : dialect.isEven text) :
    ∀ byte ∈ text, isPassed dialect byte := by
  simp only [isEven, Bool.and_eq_true, all_eq_true] at h
  exact h.1

theorem isBalanced_of_isEven (h : dialect.isEven text) (hscss : dialect = .scss) :
    isBalanced 0 text := by
  simpa [isEven, hscss] using (Bool.and_eq_true_iff.mp h).2

theorem isInert_iff : dialect.isInert text ↔ dialect.isEven text ∧ text ≠ [] ∧
    ∀ byte ∈ text, byte ≠ slash ∧ byte ≠ asterisk := by
  simp [isInert, and_assoc]

end Dialect

namespace Scan

variable {dialect : Dialect} {scan scan' : Scan} {text : Text}

theorem isHarmless_of_isInert (h : dialect.isInert text) (rest : Text) :
    isHarmless (text ++ rest).head? := by
  obtain ⟨-, hne, hbytes⟩ := isInert_iff.mp h
  obtain ⟨byte, text, rfl⟩ := exists_cons_of_ne_nil hne
  have hbyte := hbytes byte mem_cons_self
  simpa [isHarmless] using hbyte

/-- A text without slashes opens no comment. -/
theorem unmarked_of_slash_notMem (h : slash ∉ text)
    (houtside : scan.isOutside) (ahead : Option UInt8) :
    ∀ mark ∈ scan.marksUntil dialect ahead text, mark.2 = false := by
  induction text generalizing scan with
  | nil => intro mark hmark; cases hmark
  | cons byte rest ih =>
    rw [mem_cons, not_or] at h
    obtain ⟨hbyte, hrest⟩ := h
    have hmark : inComment scan (scan.next dialect byte (rest.head?.or ahead)) = false :=
      Bool.eq_false_iff.mpr fun hmark => hbyte (slash_of_inComment houtside hmark).symm
    rw [marksUntil_cons, forall_mem_cons]
    exact ⟨hmark, ih hrest (isOutside_next hmark)⟩

/-- After two even texts the scan stands alike. -/
theorem Alike.pass (h : Alike dialect scan scan') {text text' : Text}
    (htext : dialect.isEven text) (htext' : dialect.isEven text') :
    Alike dialect (scan.pass text) (scan'.pass text') := by
  obtain ⟨mode, depth⟩ := scan
  obtain ⟨mode', depth'⟩ := scan'
  obtain ⟨rfl, hdepth⟩ := h
  cases mode with
  | code =>
    refine ⟨rfl, fun hscss => ?_⟩
    have hleft := foldl_depthNext_of_isBalanced (isBalanced_of_isEven htext hscss) depth
    have hright := foldl_depthNext_of_isBalanced (isBalanced_of_isEven htext' hscss) depth'
    rw [Nat.zero_add] at hleft hright
    change text.foldl depthNext depth = text'.foldl depthNext depth'
    rw [hleft, hright]
    exact hdepth hscss
  | literal | escape | commentOpening | comment | commentClosing | lineComment =>
    exact ⟨rfl, hdepth⟩

end Scan

end Restyle
