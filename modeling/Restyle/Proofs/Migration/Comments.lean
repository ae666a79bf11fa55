import Restyle.Proofs.Migration.Programs
import Restyle.Proofs.Migration.Questions
import Restyle.Proofs.Value.Composite
import Restyle.Proofs.Value.Spelling

/-!
# Comments through a migration

A resolution replaces tokens in the code of values. If tokens and replacements neither open nor
close literals, parentheses and comments (`Table.SparesComments`), every declared value keeps the
comments that it has when it is read by itself, and a file keeps those between its values:
`resolveFile_keeps_comments`. What is kept are the comments of the file (`Source.comments_eq`) if
each value is read by itself as in the file. In CSS it always is. In a program it need not be: the
value of an entry may be an expression of which only the outermost quotation marks are taken off
(`resolveFile_renames_in_comment`).

What the resolution does to a target is written down as a list of rewrites (`Revision`), and the
changes are what these count (`resolveFile_revises`).
-/

namespace Restyle

open Dialect List Marked Source Target Text Value

/-! ## Tables that spare comments -/

/-- The tokens of a table are words that leave literals and parentheses as they are, and its
replacements can also open no comment. -/
@[mk_iff]
structure Table.SparesComments (dialect : Dialect) (table : Table) : Prop where
  word : ∀ entry ∈ table, hasBlank entry.token = false
  token : ∀ entry ∈ table, dialect.isEven entry.token ∧ wellFormed entry.token
  replacement : ∀ entry ∈ table, ∀ text ∈ entry.mapping.replacements,
    dialect.isInert text ∧ wellFormed text

instance (dialect : Dialect) (table : Table) : Decidable (table.SparesComments dialect) :=
  decidable_of_iff' _ (Table.sparesComments_iff dialect table)

variable {text : Text}

theorem Text.isSpace_of_hasBlank (h : hasBlank text = false) :
    ∀ byte ∈ text, Byte.isSpace byte = false := by
  intro byte hmem
  rw [Bool.eq_false_iff]
  intro hspace
  obtain ⟨hascii, hblank⟩ := Byte.isBlank_of_isSpace hspace
  rw [hasBlank_of_mem hascii hblank hmem] at h
  cases h

namespace Table.SparesComments

variable {dialect : Dialect} {table : Table}

theorem fits (h : table.SparesComments dialect) {entry : Entry} (hentry : entry ∈ table)
    {text : Text} (htext : text ∈ entry.mapping.replacements) : dialect.Fits entry.token text where
  blank := by
    intro byte hbyte
    have hword := h.word entry hentry
    constructor
    all_goals
      rintro rfl
      rw [hasBlank_of_mem (by decide) (by decide) hbyte] at hword
      cases hword
  even := (h.token entry hentry).1
  inert := (h.replacement entry hentry text htext).1
  tokenFormed := (h.token entry hentry).2
  replacementFormed := (h.replacement entry hentry text htext).2

end Table.SparesComments

theorem Mapping.mem_of_replacementIn {mapping : Mapping} {property : Text}
    {replacement : Replacement} (h : mapping.replacementIn? property = some replacement) :
    ∀ text ∈ replacement.texts, text ∈ mapping.replacements := by
  intro text htext
  cases mapping with
  | plain plain =>
    obtain rfl := Option.some.inj h
    exact htext
  | conditional clauses =>
    obtain ⟨clause, hfind, rfl⟩ := Option.map_eq_some_iff.mp h
    exact mem_flatMap.mpr ⟨clause, mem_of_find?_eq_some hfind, htext⟩

namespace Session

variable {σ : Type} {interaction : Interaction σ} {before after : Session σ} {events : List Event}

/-- The settled topics are settled by choices that they admit. -/
def Admitted (session : Session σ) : Prop :=
  ∀ topic choice, session.answers.find? topic = some choice → topic.Admits choice

theorem Path.admitted (h : Path interaction before events after) (hbefore : before.Admitted) :
    after.Admitted := by
  intro topic choice hfind
  cases hearlier : before.answers.find? topic with
  | some earlier =>
    rw [h.find?_eq hearlier] at hfind
    exact hbefore topic choice (hfind ▸ hearlier)
  | none =>
    unfold Answers.find? at hfind hearlier
    rw [h.entries, lookup_append, hearlier, Option.none_or] at hfind
    obtain ⟨front, back, hsplit, -⟩ := lookup_eq_some_iff.mp hfind
    have hmem : (topic, choice) ∈ events.filterMap Event.answer? := by
      rw [hsplit]
      simp
    obtain ⟨event, hevent, hanswer⟩ := mem_filterMap.mp hmem
    exact h.admits hevent hanswer

/-- The verdict on a topic is its token or one of its candidates. -/
theorem Admitted.verdict (h : after.Admitted) (topic : Topic) :
    after.answers.verdict topic = topic.token ∨ after.answers.verdict topic ∈ topic.candidates := by
  unfold Answers.verdict
  cases hfind : after.answers.find? topic with
  | none => exact .inl rfl
  | some choice =>
    cases choice with
    | none => exact .inl rfl
    | some value => exact .inr (h topic _ hfind value rfl)

end Session

/-- Whatever is picked, a table that spares comments replaces tokens by what fits. -/
theorem Table.SparesComments.fits_pin {dialect : Dialect} {table : Table}
    (h : table.SparesComments dialect) {pick : Topic → Text}
    (hpick : ∀ topic, pick topic = topic.token ∨ pick topic ∈ topic.candidates) (property : Text) :
    ∀ entry ∈ table.pin pick, entry.outcome property = entry.token ∨
      dialect.Fits entry.token (entry.outcome property) := by
  intro entry hmem
  obtain ⟨entry, hentry, rfl⟩ := mem_map.mp hmem
  unfold Entry.outcome Entry.pick
  rw [show (entry.pin pick).mapping = entry.mapping.pin pick entry.token from rfl,
    Mapping.replacementIn?_pin]
  cases hreplacement : entry.mapping.replacementIn? property with
  | none => exact .inl rfl
  | some replacement =>
    have hmem := Mapping.mem_of_replacementIn hreplacement
    cases replacement with
    | one text => exact .inr (h.fits hentry (hmem text (mem_singleton_self _)))
    | choice candidates =>
      refine (hpick ⟨entry.token, candidates⟩).imp id fun hcandidate => ?_
      exact h.fits hentry (hmem _ hcandidate)

/-! ## Rewrites of a value -/

/-- A replacement of a token by a text that fits. -/
structure Rewrite (dialect : Dialect) where
  token : Text
  replacement : Text
  fits : dialect.Fits token replacement

namespace Rewrite

open Resolution (WorkingPart)

variable {dialect : Dialect}

/-- A part with the token replaced. -/
def applyTo (part : WorkingPart) (rewrite : Rewrite dialect) : WorkingPart :=
  part.replace dialect rewrite.token rewrite.replacement

/-- The parts of a value with the token replaced in each. -/
def apply (parts : List WorkingPart) (rewrite : Rewrite dialect) : List WorkingPart :=
  parts.map (applyTo · rewrite)

/-- What rewrites count that are made in the parts of a value one after the other: how often each
finds its token in their code. -/
def notes : List WorkingPart → List (Rewrite dialect) → List Change
  | _, [] => []
  | parts, rewrite :: later =>
    ⟨rewrite.token, rewrite.replacement, sumBy (WorkingPart.count dialect rewrite.token) parts⟩ ::
      notes (rewrite.apply parts) later

/-- Rewrites are made in every part by itself. -/
theorem foldl_apply (parts : List WorkingPart) (rewrites : List (Rewrite dialect)) :
    rewrites.foldl apply parts = parts.map fun part => rewrites.foldl applyTo part := by
  induction rewrites generalizing parts with
  | nil => exact (map_id parts).symm
  | cons rewrite rewrites ih =>
    rw [foldl_cons, ih, apply, map_map]
    rfl

/-- What the entries of a table make of parts, and what they note, is what rewrites do. -/
theorem exists_rewrites {table : Table} (property : Text)
    (h : ∀ entry ∈ table, entry.outcome property = entry.token ∨
      dialect.Fits entry.token (entry.outcome property)) :
    ∃ rewrites : List (Rewrite dialect),
      (∀ part, rewrites.foldl applyTo part =
        table.foldl (Entry.rewritePart dialect property) part) ∧
      ∀ parts, notes parts rewrites =
        table.notes dialect property (parts.map WorkingPart.text) := by
  induction table with
  | nil => exact ⟨[], fun _ => rfl, fun _ => rfl⟩
  | cons entry table ih =>
    obtain ⟨hentry, hlater⟩ := forall_mem_cons.mp h
    obtain ⟨rewrites, hparts, hnotes⟩ := ih hlater
    by_cases hsame : entry.outcome property = entry.token
    · -- An entry with its token for a replacement does nothing.
      have hidle : ∀ text, entry.acts dialect property text = false := fun text => by
        simp [Entry.acts, hsame]
      refine ⟨rewrites, fun part => ?_, fun parts => ?_⟩
      · rw [foldl_cons, Entry.rewritePart, hidle, if_neg Bool.false_ne_true, hparts]
      · rw [Table.notes, Entry.note, if_pos hsame,
          Entry.map_rewrite_of_acts fun text _ => hidle text, nil_append, hnotes]
    · have happly : ∀ part : WorkingPart, part.replace dialect entry.token
          (entry.outcome property) = entry.rewritePart dialect property part :=
        WorkingPart.replace_eq hsame
      refine ⟨⟨entry.token, entry.outcome property, hentry.resolve_left hsame⟩ :: rewrites,
        fun part => ?_, fun parts => ?_⟩
      · rw [foldl_cons, foldl_cons, hparts, applyTo, happly]
      · have hparts : apply parts ⟨entry.token, entry.outcome property, hentry.resolve_left hsame⟩ =
            parts.map (entry.rewritePart dialect property ·) :=
          map_congr_left fun part _ => happly part
        rw [notes, hnotes, hparts, Entry.map_text_rewritePart, Table.notes, Entry.note,
          if_neg hsame, sumBy_map]
        rfl

theorem keeps_applyTo (part : WorkingPart) (rewrite : Rewrite dialect) :
    Value.Keeps dialect part.text (rewrite.applyTo part).text := by
  unfold applyTo WorkingPart.replace
  split
  · exact Value.Keeps.refl ..
  · exact keeps_replaceToken rewrite.fits part.text

theorem keeps_foldl (rewrites : List (Rewrite dialect)) (part : WorkingPart) :
    Value.Keeps dialect part.text (rewrites.foldl applyTo part).text := by
  induction rewrites generalizing part with
  | nil => exact Value.Keeps.refl ..
  | cons rewrite rewrites ih => exact (keeps_applyTo ..).trans (ih _)

/-- A token without blanks occurs outside comments. -/
theorem outside_of_mem_occurrences {token value : Text} {position index : Nat}
    (hblank : ∀ byte ∈ token, byte ≠ Byte.space ∧ byte ≠ Byte.newline)
    (h : position ∈ Token.occurrences token (dialect.stripComments value))
    (hstart : position ≤ index) (hstop : index < position + token.length) :
    ∃ byte, (dialect.marks value)[index]? = some (byte, false) := by
  have hstands := Token.standsAt_of_mem_occurrences h
  simp only [Token.standsAt, Bool.and_eq_true, isPrefixOf_iff_prefix] at hstands
  obtain ⟨rest, hrest⟩ := hstands.1.1
  have hlt : index - position < token.length := by omega
  have hbyte : (dialect.stripComments value)[index]? = some token[index - position] := by
    have hget := congrArg (fun text => text[index - position]?) hrest
    simp only [getElem?_append_left hlt, getElem?_drop, Nat.add_sub_cancel' hstart,
      getElem?_eq_getElem hlt] at hget
    exact hget.symm
  obtain ⟨hspace, hnewline⟩ := hblank _ (getElem_mem hlt)
  exact ⟨_, Scan.marks_of_shown hbyte hspace hnewline⟩

end Rewrite

/-- A target with the rewrites of its value. -/
structure Revision (dialect : Dialect) where
  target : Target
  rewrites : List (Rewrite dialect)

namespace Revision

open Resolution (WorkingPart partReplacements spansParts rebuild_rewritePart)

variable {dialect : Dialect} {revision : Revision dialect}

/-- The parts of the value as they are written: those of a composite value, or the value itself. -/
def source (revision : Revision dialect) : List WorkingPart :=
  if revision.target.isComposite then
    (codeParts dialect revision.target.initial).map fun span =>
      ⟨span.slice revision.target.initial, false⟩
  else [⟨revision.target.initial, false⟩]

/-- The parts of the value after the rewrites. -/
def parts (revision : Revision dialect) : List WorkingPart :=
  revision.rewrites.foldl Rewrite.apply revision.source

/-- The value after the rewrites. The parts of a composite value are put in their places. -/
def result (revision : Revision dialect) : Text :=
  if revision.target.isComposite then
    rebuild dialect revision.target.initial (partReplacements revision.parts)
  else revision.parts.flatMap WorkingPart.text

/-- The target after the rewrites. -/
def current (revision : Revision dialect) : Target :=
  { revision.target with working := revision.result }

/-- What the rewrites count. -/
def notes (revision : Revision dialect) : List Change :=
  Rewrite.notes revision.source revision.rewrites

theorem keeps_result (h : revision.target.isComposite = false) :
    Value.Keeps dialect revision.target.initial revision.result := by
  have hresult : revision.result =
      (revision.rewrites.foldl Rewrite.applyTo ⟨revision.target.initial, false⟩).text := by
    rw [result, h, parts, Rewrite.foldl_apply, source, h]
    simp
  rw [hresult]
  exact Rewrite.keeps_foldl revision.rewrites ⟨revision.target.initial, false⟩

/-- Parts that have not been changed make no replacements. -/
theorem partReplacements_unchanged (spans : List Span) (value : Text) :
    partReplacements (spans.map fun span => WorkingPart.mk (span.slice value) false) = [] := by
  refine filterMap_eq_nil_iff.mpr fun entry hmem => ?_
  obtain ⟨part, index⟩ := entry
  obtain ⟨span, -, rfl⟩ := mem_map.mp (fst_mem_of_mem_zipIdx hmem)
  rfl

theorem result_nil (target : Target) : (Revision.mk target [] : Revision dialect).result =
    target.initial := by
  unfold result parts source
  cases target.isComposite with
  | true =>
    simp only [if_true, foldl_nil]
    rw [partReplacements_unchanged, rebuild_nil]
  | false => simp

theorem current_nil {target : Target} (h : target.working = target.initial) :
    (Revision.mk target [] : Revision dialect).current = target := by
  rw [current, result_nil]
  obtain ⟨name, span, initial, working, isNumber, isComposite⟩ := target
  rw [show initial = working from h.symm]

/-- Targets without rewrites. -/
def fresh (dialect : Dialect) (targets : List Target) : List (Revision dialect) :=
  targets.map fun target => ⟨target, []⟩

/-- Targets without rewrites are the targets, and nothing is counted in them. -/
theorem fresh_spec {targets : List Target}
    (h : ∀ target ∈ targets, target.working = target.initial) :
    (fresh dialect targets).map target = targets ∧ (fresh dialect targets).map current = targets ∧
      (fresh dialect targets).flatMap notes = [] := by
  refine ⟨(map_map ..).trans (map_id targets), ?_, ?_⟩
  · rw [fresh, map_map]
    exact (map_congr_left fun target hmem => current_nil (h target hmem)).trans (map_id targets)
  · rw [flatMap_eq_nil_iff]
    intro revision hmem
    obtain ⟨target, -, rfl⟩ := mem_map.mp hmem
    rfl

/-- What a table whose tokens have no blanks makes of a target, and what it notes, is a revision. -/
theorem exists_revision {table : Table} {target : Target} (hfresh : target.working = target.initial)
    (hwords : ∀ entry ∈ table, hasBlank entry.token = false)
    (hfits : ∀ property, ∀ entry ∈ table, entry.outcome property = entry.token ∨
      dialect.Fits entry.token (entry.outcome property)) :
    ∃ revision : Revision dialect, revision.target = target ∧
      revision.current = target.rewrite dialect table ∧
      revision.notes = target.notes dialect table := by
  obtain ⟨rewrites, hparts, hnotes⟩ := Rewrite.exists_rewrites target.name (hfits target.name)
  obtain ⟨hacross, hinside⟩ := Table.across_eq_nil hwords
  let revision : Revision dialect := ⟨target, rewrites⟩
  have hpieces : revision.parts =
      revision.source.map fun part => table.foldl (Entry.rewritePart dialect target.name) part := by
    rw [Revision.parts, Rewrite.foldl_apply]
    exact map_congr_left fun part _ => hparts part
  have hcount : revision.notes = _ := hnotes revision.source
  have hcurrent : revision.current = { target with working := revision.result } := rfl
  refine ⟨revision, rfl, ?_, ?_⟩
  · rw [hcurrent, rewrite, result, hpieces, source]
    show Target.mk _ _ _ (if target.isComposite then _ else _) _ _ = _
    split
    · rw [rebuild_rewritePart, Table.rewriteList, hacross, hinside, hfresh]
      rfl
    · have htext := (Table.foldl_rewritePart dialect target.name table ⟨target.initial, false⟩).1
      rw [hfresh, ← htext, map_singleton, flatMap_singleton]
  · rw [hcount, Target.notes, source, Table.notesList, hacross, hinside, hfresh]
    split
    · rw [map_map]; rfl
    · rfl

/-- A table whose tokens have no blanks revises targets. -/
theorem exists_revisions {table : Table} {targets : List Target}
    (hfresh : ∀ target ∈ targets, target.working = target.initial)
    (hwords : ∀ entry ∈ table, hasBlank entry.token = false)
    (hfits : ∀ property, ∀ entry ∈ table, entry.outcome property = entry.token ∨
      dialect.Fits entry.token (entry.outcome property)) :
    ∃ revisions : List (Revision dialect), revisions.map target = targets ∧
      revisions.map current = targets.map (rewrite dialect table) ∧
      revisions.flatMap notes = targets.flatMap (Target.notes dialect table) := by
  induction targets with
  | nil => exact ⟨[], rfl, rfl, rfl⟩
  | cons first targets ih =>
    obtain ⟨hfirst, hlater⟩ := forall_mem_cons.mp hfresh
    obtain ⟨revision, htarget, hcurrent, hnotes⟩ := exists_revision hfirst hwords hfits
    obtain ⟨revisions, htargets, hcurrents, hall⟩ := ih hlater
    refine ⟨revision :: revisions, ?_, ?_, ?_⟩
    · rw [map_cons, htarget, htargets]
    · rw [map_cons, hcurrent, hcurrents, map_cons]
    · rw [flatMap_cons, hnotes, hall, flatMap_cons]

/-- A value keeps its comments, a composite one if it is plain. -/
theorem inOrder_result (hdialect : dialect ≠ .script) (hplain : revision.target.isComposite →
      Value.isPlain dialect revision.target.initial) :
    InOrder (dialect.comments revision.target.initial) revision.result := by
  cases hcomposite : revision.target.isComposite with
  | false =>
    rw [← (keeps_result hcomposite).comments]
    exact dialect.inOrder_comments _
  | true =>
    rw [result, hcomposite, if_pos rfl]
    refine inOrder_rebuild hdialect (hplain hcomposite) fun item hmem replacement hlookup => ?_
    obtain ⟨span, index⟩ := item
    -- The replacement at the index is the text of the part with that index.
    have hpart : (revision.rewrites.foldl Rewrite.applyTo
        ⟨span.slice revision.target.initial, false⟩, index) ∈ revision.parts.zipIdx := by
      rw [parts, Rewrite.foldl_apply, source, hcomposite, if_pos rfl, map_map, zipIdx_map]
      exact mem_map_of_mem hmem
    have hfound := Resolution.lookup_partReplacements hpart
    change (partReplacements _).lookup index = _ at hfound
    rw [hfound] at hlookup
    split at hlookup
    · obtain rfl := Option.some.inj hlookup
      exact Rewrite.keeps_foldl revision.rewrites ⟨span.slice revision.target.initial, false⟩
    · cases hlookup

end Revision

/-! ## The comments of a file -/

/-- The comments of a target's value, which is read by itself. Of a composite value they are given
if it is plain. -/
def Target.comments (dialect : Dialect) (text : Text) (target : Target) : List Text :=
  if target.isComposite && !Value.isPlain dialect (target.span.slice text) then []
  else dialect.comments (target.span.slice text)

/-- The comments of a file outside its declared values, with those of the values in their places. -/
def Source.comments (path text : Text) : List Text :=
  ((ofPath path).marks text).around 0 ((ofRules text (rules path text)).map fun target =>
      (target.span, target.comments (ofPath path).ofValue text))

/-- A number is read from the whole value of an entry. -/
theorem StyleObject.readValue_of_isNumber {raw : Text} {span : Span}
    (h : (readValue raw span).1.isNumber) :
    (∃ number, readNumeral? raw = some number) ∧ (readValue raw span).2 = span := by
  unfold readValue at h ⊢
  split at h
  · cases h
  next hquoted =>
    rw [if_neg hquoted]
    split at h
    next number hread => exact ⟨⟨number, hread⟩, rfl⟩
    · cases h

theorem Dialect.ofValue_ne_script (dialect : Dialect) : dialect.ofValue ≠ .script := by
  cases dialect <;> decide

/-- Values are read as the file is, unless it is a program. -/
theorem Dialect.ofValue_eq_self {dialect : Dialect} (h : dialect ≠ .script) :
    dialect.ofValue = dialect := by
  cases dialect with
  | css | scss => rfl
  | script => exact absurd rfl h

namespace Target

variable {path text : Text} {target : Target}

/-- A target comes from a declaration in a block of the file. -/
theorem exists_declaration (h : target ∈ ofRules text (rules path text)) :
    ∃ block ∈ Block.scan (ofPath path) ((ofPath path).stripComments text),
      ∃ declaration ∈ Declaration.scanVisible (ofPath path) ((ofPath path).stripComments text)
        ((ofPath path).visible ((ofPath path).stripComments text)) block.interior,
      ∃ declared, declare? (ofPath path) ((ofPath path).stripComments text)
        block declaration = some declared ∧ declared.target text = target := by
  rw [ofRules_eq, mem_mergeSort] at h
  obtain ⟨declared, hmem, htarget⟩ := mem_map.mp h
  obtain ⟨block, hblock, hdeclared⟩ := mem_flatMap.mp hmem
  obtain ⟨declaration, hdeclaration, heq⟩ := mem_filterMap.mp hdeclared
  exact ⟨block, hblock, declaration, hdeclaration, declared, heq, htarget⟩

theorem comments_of_isNumber (h : target ∈ ofRules text (rules path text))
    (hnumber : target.isNumber) (dialect : Dialect) :
    dialect.comments (target.span.slice text) = [] := by
  obtain ⟨block, -, declaration, -, declared, heq, rfl⟩ := exists_declaration h
  obtain ⟨-, _, rfl, rfl⟩ | ⟨-, rfl⟩ := declare_cases heq
  · obtain ⟨⟨number, hread⟩, hspan⟩ := StyleObject.readValue_of_isNumber hnumber
    obtain ⟨numeral, hraw, -⟩ := Numeral.readNumeral_eq_some_iff.mp hread
    change dialect.comments ((StyleObject.readValue _ _).2.slice text) = []
    rw [hspan, slice_stripComments, ← hraw, numeral.comments_text]
    rw [← hraw]
    exact fun byte hmem => ⟨Numeral.ne_of_mem_text hmem (by decide),
      Numeral.ne_of_mem_text hmem (by decide)⟩
  · cases hnumber

/-- A declared value of a stylesheet is read by itself as in the file, in SCSS where the scan of the
file stands outside literals and parentheses. -/
theorem reads_of_mem (h : target ∈ ofRules text (rules path text))
    (hdialect : ofPath path ≠ .script) (hscan : ofPath path = .scss →
      Scan.start.stateAt (ofPath path) text target.span.start = Scan.start) :
    (ofPath path).Reads (ofPath path).ofValue text target.span := by
  obtain ⟨block, hblock, declaration, hdeclaration, declared, heq, rfl⟩ := exists_declaration h
  have hspan : (declared.target text).span = declaration.value := by
    obtain ⟨hscript, -⟩ | ⟨-, rfl⟩ := declare_cases heq
    · exact absurd hscript hdialect
    · rfl
  rw [ofValue_eq_self hdialect, hspan]
  rw [hspan] at hscan
  exact Declaration.reads_value hblock hdeclaration hdialect hscan

end Target

/-- Declared values that are read as in the file, composite ones plain, have the comments that the
file has there. -/
theorem Source.comments_eq {path : Text} (h : ∀ target ∈ ofRules text (rules path text),
      (ofPath path).Reads (ofPath path).ofValue text target.span ∧
      (target.isComposite →
        Value.isPlain (ofPath path).ofValue (target.span.slice text))) :
    Source.comments path text = (ofPath path).comments text := by
  have hordered := ofRules_ordered path text
  rw [← Scan.length_marks (ofPath path) Scan.start text] at hordered
  refine (around_eq_runs hordered fun target hmem => ?_).trans rfl
  obtain ⟨hreads, hplain⟩ := h target hmem
  have hcomments : target.comments (ofPath path).ofValue text =
      (ofPath path).ofValue.comments (target.span.slice text) := by
    refine if_neg fun hspared => ?_
    simp only [Bool.and_eq_true, Bool.not_eq_true'] at hspared
    rw [hplain hspared.1] at hspared
    cases hspared.2
  change _ ∧ beginsMarked (slice _ ((ofPath path).marks text)) = _ ∧
    endsMarked (slice _ ((ofPath path).marks text)) = _ ∧
    _ = runs (slice _ ((ofPath path).marks text))
  rw [hreads.marks]
  exact ⟨hreads.order, hreads.begins, hreads.ends, hcomments⟩

/-- A value holds its comments after rewrites. -/
theorem Revision.inOrder_held {path : Text} {revision : Revision (ofPath path).ofValue}
    (h : revision.target ∈ ofRules text (rules path text)) :
    InOrder (revision.target.comments (ofPath path).ofValue text) (revision.current.held text) := by
  unfold Target.comments
  split
  · trivial
  next hspared =>
    cases hnumber : revision.target.isNumber with
    | true =>
      rw [comments_of_isNumber h hnumber]
      trivial
    | false =>
      have hheld : revision.current.held text = revision.result := by
        have hcurrent : revision.current.isNumber = false := hnumber
        simp [held, render, hcurrent]
        rfl
      have hinitial := (ofRules_source h).2 hnumber
      rw [hheld, ← hinitial]
      refine Revision.inOrder_result (ofValue_ne_script _) fun hcomposite => ?_
      rw [hinitial]
      simpa [hcomposite] using hspared

namespace Resolution

variable {σ : Type} {interaction : Interaction σ} {context : Context} {table : Table} {text : Text}
  {before after : Session σ}

/-- Targets after rewrites stand where the targets of the file do. -/
theorem apply_revisions {path : Text} {revisions : List (Revision (ofPath path).ofValue)}
    (h : revisions.map Revision.target = ofRules text (rules path text)) :
    apply (revisions.map Revision.current) text =
      text.fill 0 (revisions.map fun revision =>
        (revision.target.span, revision.current.held text)) := by
  have hframes : (revisions.map Revision.current).map frame =
      (ofRules text (rules path text)).map frame := by
    rw [← h, map_map, map_map]
    rfl
  obtain ⟨hordered, hsource⟩ := ordered_of_frames hframes
  rw [apply_eq_fill hordered hsource, map_map]
  rfl

/-- What a resolution makes of a file is made by rewrites of its declared values, and the changes
are what these count. -/
theorem resolveFile_revises (htable : table.SparesComments (ofPath context.path).ofValue)
    (hbefore : before.Admitted) :
    ∃ (resolution : Resolution) (after : Session σ)
      (revisions : List (Revision (ofPath context.path).ofValue)) (notes : List Change),
      (resolveFile interaction context table text).run.run before = (.ok resolution, after) ∧
      revisions.map Revision.target = ofRules text (rules context.path text) ∧
      resolution.data = text.fill 0 (revisions.map fun revision =>
        (revision.target.span, revision.current.held text)) ∧
      (revisions.flatMap Revision.notes).Perm notes ∧
      resolution.changes = Change.recordAll [] notes := by
  rcases hrun : (tryResolve interaction context table (rules context.path text)
    text).run.run before with ⟨outcome, after⟩
  rcases outcome with (error | _) | resolution
  · -- Nothing is rewritten.
    obtain ⟨htargets, hcurrent, hnotes⟩ := @Revision.fresh_spec
      (ofPath context.path).ofValue _ fun _ hmem => (ofRules_source hmem).1
    refine ⟨.unchanged text, _, _, [], resolveFile_of_error hrun, htargets, ?_, ?_, rfl⟩
    · rw [← apply_revisions htargets, hcurrent, apply_ofRules]
      rfl
    · rw [hnotes]
  · obtain ⟨entry, hmem, hspaced⟩ := exists_of_panic hrun
    exact absurd (isFlush_of_hasBlank (htable.word entry hmem)) hspaced
  · obtain ⟨events, hpath, -⟩ := tryResolve_converses interaction context table _ text _ _ _ hrun
    have hwords : ∀ entry ∈ table.pin after.answers.verdict, hasBlank entry.token = false :=
      forall_mem_map.mpr htable.word
    -- The resolution is that by the table without choices.
    obtain ⟨notes, hperm, rfl⟩ := tryResolve_records hrun
    obtain ⟨revisions, htargets, hcurrent, hnotes⟩ := Revision.exists_revisions
      (fun _ hmem => (ofRules_source hmem).1) hwords
      (htable.fits_pin (hpath.admitted hbefore).verdict)
    refine ⟨_, after, revisions, notes, resolveFile_of_tryResolve hrun, htargets, ?_, ?_, rfl⟩
    · rw [← apply_revisions htargets, hcurrent]
    · rw [hnotes]
      exact hperm.symm

/-- A table that spares comments keeps them. Every comment between the declared values and every
comment of a value stands in the result, in its order. These are the comments of the file if the
values are read by themselves as in the file, which they always are in CSS, and composite values are
plain. The changes are what the rewrites of the values count, and nothing inside a comment is
counted. -/
theorem resolveFile_keeps_comments {σ : Type} (interaction : Interaction σ) (context : Context)
    (table : Table) (text : Text) (before : Session σ)
    (htable : table.SparesComments (Dialect.ofPath context.path).ofValue)
    (hbefore : before.Admitted) :
    ∃ (resolution : Resolution) (after : Session σ)
      (revisions : List (Revision (Dialect.ofPath context.path).ofValue)) (notes : List Change),
      (resolveFile interaction context table text).run.run before = (.ok resolution, after) ∧
      InOrder (Source.comments context.path text) resolution.data ∧
      ((∀ target ∈ Target.ofRules text (Source.rules context.path text),
          (Dialect.ofPath context.path ≠ .css →
            (Dialect.ofPath context.path).Reads (Dialect.ofPath context.path).ofValue text
              target.span) ∧
          (target.isComposite = true →
            Value.isPlain (Dialect.ofPath context.path).ofValue (target.span.slice text) = true)) →
        InOrder ((Dialect.ofPath context.path).comments text) resolution.data) ∧
      revisions.map Revision.target = Target.ofRules text (Source.rules context.path text) ∧
      (revisions.flatMap Revision.notes).Perm notes ∧
      resolution.changes = Change.recordAll [] notes ∧
      ∀ revision ∈ revisions, ∀ rewrite ∈ revision.rewrites, ∀ value : Text,
        ∀ position ∈ Token.occurrences rewrite.token
          ((Dialect.ofPath context.path).ofValue.stripComments value),
        ∀ index, position ≤ index → index < position + rewrite.token.length →
          ∃ byte, ((Dialect.ofPath context.path).ofValue.marks value)[index]? =
            some (byte, false) := by
  obtain ⟨resolution, after, revisions, notes, hrun, htargets, hdata, hnotes, hchanges⟩ :=
    @resolveFile_revises σ interaction context table text before htable hbefore
  have hmem : ∀ revision ∈ revisions,
      revision.target ∈ ofRules text (rules context.path text) := fun revision h =>
    htargets ▸ mem_map_of_mem h
  have hcomments : InOrder (Source.comments context.path text) resolution.data := by
    have hinOrder := inOrder_around (fun revision : Revision _ => revision.target.span)
      (fun revision h => Revision.inOrder_held (hmem revision h))
      ((ofPath context.path).marks text) 0
    rw [marks, Scan.map_fst_marks, ← hdata] at hinOrder
    rw [Source.comments, ← htargets, map_map]
    exact hinOrder
  refine ⟨resolution, after, revisions, notes, hrun, hcomments, fun hvalues => ?_, htargets, hnotes,
    hchanges, ?_⟩
  · rw [← comments_eq]
    · exact hcomments
    · intro target htarget
      obtain ⟨hreads, hplain⟩ := hvalues target htarget
      refine ⟨?_, hplain⟩
      cases hpath : ofPath context.path with
      | css =>
        have hread := reads_of_mem htarget (by rw [hpath]; decide)
          (by rw [hpath]; intro h; cases h)
        rwa [hpath] at hread
      | scss | script => exact hpath ▸ hreads (by rw [hpath]; decide)
  · intro revision _ rewrite _ value position hposition index hstart hstop
    exact Rewrite.outside_of_mem_occurrences rewrite.fits.blank hposition hstart hstop

/-- Where the stylesheets below stand. -/
def sheetContext : Context :=
  ⟨utf8 "x.css", false, none⟩

/-- A rule with a list for a value, in which a property is named in the code and in a comment. -/
def commentedList : Text :=
  utf8 ".x\x7bmargin:var(--a) /* --a */ 0\x7d"

/-- The comment of `commentedList` is kept. -/
theorem resolveFile_keeps_comments_commentedList :
    renameA.SparesComments (Dialect.ofPath sheetContext.path).ofValue ∧ Session.silent.Admitted ∧
    (Dialect.ofPath sheetContext.path).comments commentedList = [utf8 "/* --a */"] ∧
    ∃ (resolution : Resolution) (after : Session Unit),
      (resolveFile Interaction.silent sheetContext renameA commentedList).run.run Session.silent =
        (.ok resolution, after) ∧
      InOrder [utf8 "/* --a */"] resolution.data := by
  have htable : renameA.SparesComments (Dialect.ofPath sheetContext.path).ofValue := by
    decide
  have hadmitted : Session.silent.Admitted := by
    intro topic choice hfind
    cases hfind
  have hcomments : (Dialect.ofPath sheetContext.path).comments commentedList =
      [utf8 "/* --a */"] := by
    decide
  have hpath : ofPath sheetContext.path = .css := by decide
  obtain ⟨-, htargets⟩ := @Target.ofRules_of_closed sheetContext.path commentedList .css [⟨2, 30⟩]
    [⟨utf8 "margin", ⟨10, 30⟩, utf8 "var(--a) /* --a */ 0", utf8 "var(--a) /* --a */ 0", false,
      true⟩] hpath (by decide) (by decide) (by decide) (by decide)
  obtain ⟨resolution, after, -, -, hrun, -, hkept, -⟩ := resolveFile_keeps_comments
    Interaction.silent sheetContext renameA commentedList Session.silent htable hadmitted
  refine ⟨htable, hadmitted, hcomments, resolution, after, hrun, hcomments ▸ hkept ?_⟩
  intro target hmem
  rw [htargets, List.mem_singleton] at hmem
  subst hmem
  exact ⟨fun hne => absurd hpath hne, fun _ => by decide⟩

/-- A program in which the value of an entry is a sum of two literals with a comment between
them. -/
def commentedSum : Text :=
  utf8 "s=\x7bcolor:'var(--a)' /* --a */ + 'b'\x7d"

/-- The program `commentedSum` with the property renamed, also in the comment. -/
def commentedSumRenamed : Text :=
  utf8 "s=\x7bcolor:'var(--b)' /* --b */ + 'b'\x7d"

/-- The comment in the value of `commentedSum` is not kept, and what is renamed in it is counted:
read without its outermost quotation marks, the value has the comment inside a literal. -/
theorem resolveFile_renames_in_comment :
    renameA.SparesComments (Dialect.ofPath programContext.path).ofValue ∧
    (Dialect.ofPath programContext.path).comments commentedSum = [utf8 "/* --a */"] ∧
    (resolveFile Interaction.silent programContext renameA commentedSum).run.run Session.silent =
      (.ok ⟨commentedSumRenamed, [⟨utf8 "--a", utf8 "--b", 2⟩]⟩, Session.silent) ∧
    ¬ InOrder ((Dialect.ofPath programContext.path).comments commentedSum)
      commentedSumRenamed := by
  have hcomments : (Dialect.ofPath programContext.path).comments commentedSum =
      [utf8 "/* --a */"] := by
    decide
  obtain ⟨-, htargets⟩ := @Target.ofRules_of_closed programContext.path commentedSum .script
    [⟨2, 35⟩]
    [⟨utf8 "color", ⟨10, 34⟩, utf8 "var(--a)' /* --a */ + 'b", utf8 "var(--a)' /* --a */ + 'b",
      false, false⟩]
    (by decide) (by decide) (by decide) (by decide) (by decide)
  refine ⟨by decide, hcomments, resolveFile_of_tryResolve ?_, ?_⟩
  · rw [tryResolve, htargets]
    rfl
  · rw [hcomments]
    rintro ⟨left, right, hdata, -⟩
    have hinfix : ¬ utf8 "/* --a */" <:+: commentedSumRenamed := by decide
    exact hinfix ⟨left, right, hdata.symm⟩

end Resolution

end Restyle
