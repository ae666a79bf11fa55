import Restyle.Proofs.Migration.Literals
import Restyle.Proofs.Migration.Sole
import Restyle.Proofs.Value.Cuts

/-!
# Numbers of a program that is migrated

By a table without choices an entry counts the occurrences that it finds in a value, which the
entries before it have rewritten. `Target.tally` adds them up for one target, and the changes of a
resolution have for every pair of texts the sum over the targets of the file:
`Resolution.tryResolve_counts`.

A number of a program is looked through as it is displayed, not as it is spelled. So an entry for a
number finds those that are displayed as the entry spells it: `Resolution.resolveFile_numbers` says
what becomes of a number that is spelled as the token of the first entry, and whether it is counted.
The number `.5` is displayed as `0.5` and an entry for `.5` does not find it
(`resolveFile_misses_number`).
-/

namespace Restyle

/-! ## What is counted -/

/-- How often an entry replaces the first text of a pair by the second in a value. -/
def Entry.tally (dialect : Dialect) (property : Text) (entry : Entry) (value : Text)
    (pair : Text × Text) : Nat :=
  if entry.outcome property ≠ entry.token ∧ (entry.token, entry.outcome property) = pair then
    Token.count entry.token (dialect.stripComments value)
  else 0

/-- How often the entries of a table, one after the other, do so. -/
def Table.tally (dialect : Dialect) (property : Text) : Table → Text → Text × Text → Nat
  | [], _, _ => 0
  | entry :: table, value, pair =>
    entry.tally dialect property value pair +
      Table.tally dialect property table (entry.rewrite dialect property value) pair

/-- How often a table does so in a composite value: first as a whole and then in its parts. -/
def Table.tallyList (dialect : Dialect) (property : Text) (table : Table) (value : Text)
    (pair : Text × Text) : Nat :=
  (Table.across table).tally dialect property value pair +
    sumBy (fun span => (Table.inside table).tally dialect property
        (span.slice ((Table.across table).rewrite dialect property value)) pair)
      (Value.codeParts dialect ((Table.across table).rewrite dialect property value))

/-- How often a table does so in a target. -/
def Target.tally (dialect : Dialect) (table : Table) (target : Target) (pair : Text × Text) : Nat :=
  if target.isComposite then table.tallyList dialect target.name target.working pair
  else table.tally dialect target.name target.working pair

variable {dialect : Dialect} {property value : Text} {entry : Entry} {table : Table}

/-- An entry that has another text for its token counts it. -/
theorem Entry.tally_of_ne (h : entry.outcome property ≠ entry.token) :
    entry.tally dialect property value = fun pair =>
      if (entry.token, entry.outcome property) = pair then
        Token.count entry.token (dialect.stripComments value)
      else 0 := by
  funext pair
  simp only [Entry.tally, h, not_false_eq_true, ne_eq, true_and]

theorem Entry.tally_of_acts (h : entry.acts dialect property value = false) :
    entry.tally dialect property value = fun _ => 0 := by
  funext pair
  unfold Entry.tally
  split
  next hother =>
    have hoccurs : Token.occursIn entry.token (dialect.stripComments value) ≠ true := by
      simpa [Entry.acts, hother.1] using h
    rwa [ne_eq, Token.occursIn_iff, Decidable.not_not] at hoccurs
  · rfl

theorem Table.tally_of_acts (h : ∀ entry ∈ table, entry.acts dialect property value = false) :
    table.tally dialect property value = fun _ => 0 := by
  induction table with
  | nil => rfl
  | cons entry table ih =>
    obtain ⟨hentry, hlater⟩ := List.forall_mem_cons.mp h
    funext pair
    rw [Table.tally, Entry.tally_of_acts hentry, Entry.rewrite_of_acts hentry, ih hlater]
    rfl

/-! ## What the notes count -/

/-- What an entry notes in texts counts what it replaces in each of them. -/
theorem Entry.tally_note (dialect : Dialect) (property : Text) (entry : Entry) (texts : List Text)
    (pair : Text × Text) : Change.tally pair (entry.note dialect property texts) =
      sumBy (fun text => entry.tally dialect property text pair) texts := by
  unfold Entry.note Entry.tally
  by_cases hcounts : entry.outcome property ≠ entry.token ∧
      (entry.token, entry.outcome property) = pair
  · simp only [if_pos hcounts, if_neg hcounts.1]
    exact if_pos hcounts.2
  · simp only [if_neg hcounts]
    rw [sumBy_eq_zero_iff.mpr fun _ _ => rfl]
    split
    · rfl
    next hother => exact if_neg fun hpair => hcounts ⟨hother, hpair⟩

/-- What a table notes in texts counts what it replaces in each of them. -/
theorem Table.tally_notes (dialect : Dialect) (property : Text) (table : Table) (texts : List Text)
    (pair : Text × Text) : Change.tally pair (table.notes dialect property texts) =
      sumBy (fun text => table.tally dialect property text pair) texts := by
  induction table generalizing texts with
  | nil => exact (sumBy_eq_zero_iff.mpr fun _ _ => rfl).symm
  | cons entry table ih =>
    rw [Table.notes, Change.tally, sumBy_append]
    refine (congrArg₂ (· + ·) (entry.tally_note ..) (ih _)).trans ?_
    rw [sumBy_map, ← sumBy_add]
    rfl

/-- What a table notes in a target counts what it replaces in it. -/
theorem Target.tally_notes (dialect : Dialect) (table : Table) (target : Target)
    (pair : Text × Text) :
    Change.tally pair (target.notes dialect table) = target.tally dialect table pair := by
  unfold notes tally
  split
  · rw [Table.notesList, Change.tally, sumBy_append]
    refine (congrArg₂ (· + ·) (Table.tally_notes ..) (Table.tally_notes ..)).trans ?_
    rw [sumBy_map]
    rfl
  · exact Table.tally_notes ..

/-- The changes of a resolution that does not fail count what the table in which the choices are
made replaces in the targets of the file. -/
theorem Resolution.tryResolve_counts {σ : Type} {interaction : Interaction σ} {context : Context}
    {text : Text} {before after : Session σ} {resolution : Resolution}
    (h : (tryResolve interaction context table (Source.rules context.path text) text).run.run
      before = (.ok resolution, after)) :
    ∀ pair, Change.countOf pair resolution.changes =
      sumBy (fun target => target.tally (Dialect.ofPath context.path).ofValue
        (table.pin after.answers.verdict) pair)
        (Target.ofRules text (Source.rules context.path text)) := by
  obtain ⟨recorded, hperm, rfl⟩ := tryResolve_records h
  refine fun pair => ((Change.distinct_recordAll recorded).2 pair).trans ?_
  refine (sumBy_perm hperm).trans ((sumBy_flatMap ..).trans ?_)
  exact sumBy_congr fun target _ => Target.tally_notes ..

open Dialect List StyleObject Target Token

open Declaration (Placed placed)

/-! ## A number in a value -/

variable {dialect : Dialect} {text : Text} {numeral : Numeral}

theorem Token.occurrences_of_length_lt {token : Text} (h : text.length < token.length) :
    occurrences token text = [] := by
  refine eq_nil_iff_forall_not_mem.mpr fun offset hoffset => ?_
  have hlength := (prefix_of_mem_occurrences hoffset).2.length_le
  rw [length_drop] at hlength
  omega

theorem Value.replaceToken_self {token : Text} (hne : token ≠ [])
    (hcode : dialect.stripComments token = token) (new : Text) :
    replaceToken dialect token token new = new := by
  have hwhole : replaceCode dialect token token new = new := by
    rw [replaceCode, replaceMasked, hcode, occurrences_self hne]
    simp [splice]
  have hreference : replaceCode dialect token (referTo token) new = token := by
    rw [replaceCode, replaceMasked, hcode, occurrences_of_length_lt]
    · rfl
    · simp only [referTo, length_append, length_opening]
      omega
  unfold replaceToken
  split
  · rw [hreference, hwhole]
  · exact hwhole

namespace Numeral

variable {numeral : Numeral}

theorem stripComments_shown (numeral : Numeral) (dialect : Dialect) :
    dialect.stripComments numeral.shown = numeral.shown := by
  refine stripFrom_of_unmarked ?_
  rw [← Scan.marksUntil_none]
  refine Scan.unmarked_of_slash_notMem (fun hmem => ?_) rfl none
  rcases (count_shown numeral).1 _ hmem with h | h | h <;> cases h

variable {dialect : Dialect} {property new : Text}

section Renamed

variable (hne : new ≠ numeral.text)
include hne

/-- An entry for the spelling of a number acts on the number if it is displayed so. -/
theorem acts_shown : (Entry.mk numeral.text (.plain new)).acts dialect property numeral.shown =
      decide (numeral.shown = numeral.text) := by
  have hother : ((Entry.mk numeral.text (.plain new)).outcome property !=
      numeral.text) := bne_iff_ne.mpr hne
  show (_ && occursIn numeral.text (dialect.stripComments numeral.shown)) = _
  rw [hother, stripComments_shown, occursIn, occurrences_shown]
  by_cases hshown : numeral.shown = numeral.text <;> simp [hshown]

/-- An entry for the spelling of a number replaces the number if it is displayed so. -/
theorem rewrite_shown :
    (Entry.mk numeral.text (.plain new)).rewrite dialect property numeral.shown =
      if numeral.shown = numeral.text then new else numeral.shown := by
  rw [Entry.rewrite, acts_shown hne]
  by_cases hshown : numeral.shown = numeral.text
  · have hcode := numeral.stripComments_shown dialect
    rw [hshown] at hcode ⊢
    rw [decide_eq_true rfl, if_pos rfl, if_pos rfl]
    exact Value.replaceToken_self numeral.text_ne_nil hcode new
  · rw [decide_eq_false hshown, if_neg Bool.false_ne_true, if_neg hshown]

/-- An entry for the spelling of a number counts the number once if it is displayed so. -/
theorem tally_shown : (Entry.mk numeral.text (.plain new)).tally dialect property numeral.shown
      (numeral.text, new) = if numeral.shown = numeral.text then 1 else 0 := by
  have hother : (Entry.mk numeral.text (.plain new)).outcome property ≠ numeral.text := hne
  rw [Entry.tally_of_ne hother]
  show (if (numeral.text, new) = (numeral.text, new) then
    Token.count numeral.text (dialect.stripComments numeral.shown) else 0) = _
  rw [if_pos rfl, stripComments_shown, Token.count, occurrences_shown]
  split <;> rfl

/-- A number after a table whose first entry is for its spelling. -/
theorem rewrite_table (later : Table) :
    Table.rewrite dialect property (⟨numeral.text, .plain new⟩ :: later) numeral.shown =
      later.rewrite dialect property
        (if numeral.shown = numeral.text then new else numeral.shown) := by
  rw [Table.rewrite, foldl_cons, rewrite_shown hne]
  rfl

/-- What a table whose first entry is for the spelling of a number counts of it. -/
theorem tally_table (later : Table) :
    Table.tally dialect property (⟨numeral.text, .plain new⟩ :: later) numeral.shown
        (numeral.text, new) =
      (if numeral.shown = numeral.text then 1 else 0) +
        later.tally dialect property (if numeral.shown = numeral.text then new else numeral.shown)
          (numeral.text, new) := by
  rw [Table.tally, tally_shown hne, rewrite_shown hne]

end Renamed

theorem readValue_text (numeral : Numeral) (span : Span) :
    readValue numeral.text span = (.number numeral.number, span) := by
  have hquote : numeral.text.head?.any isQuote = false := by
    rw [Option.any_eq_false_iff_get]
    intro hsome
    have hmem : numeral.text.head?.get hsome ∈ numeral.text :=
      mem_of_head? (Option.some_get hsome).symm
    revert hmem
    generalize numeral.text.head?.get hsome = byte
    intro hmem
    refine eq_false_of_ne_true fun hquote => ?_
    rcases Literal.quote_cases hquote with h | h | h <;> exact ne_of_mem_text hmem (by decide) h
  rw [readValue, hquote, Bool.and_false, Bool.false_and, if_neg Bool.false_ne_true,
    readNumeral_eq_some_iff.mpr ⟨numeral, rfl, rfl⟩]

end Numeral

/-! ## A number in a program -/

/-- What ends in code, without slashes and line feeds, is code. -/
theorem Dialect.slice_stripComments_of_end {span : Span} {byte : UInt8}
    (hlt : span.start < span.stop) (hstop : span.stop ≤ text.length)
    (hbytes : ∀ byte ∈ span.slice text, byte ≠ Byte.slash ∧ byte ≠ Byte.newline)
    (hend : (dialect.marks text)[span.stop - 1]? = some (byte, false))
    (hbyte : byte ≠ Byte.newline) : span.slice (dialect.stripComments text) = span.slice text := by
  have hlength := Span.length_slice hstop
  have hword : (span.slice text).dropLast.length = span.stop - 1 - span.start := by
    rw [length_dropLast]
    omega
  have hbefore := unmarked_before (fun byte hmem => hbytes byte (dropLast_subset _ hmem))
    ((List.dropLast_prefix _).trans (List.take_prefix _ _))
    (by rwa [hword, show span.start + (span.stop - 1 - span.start) = span.stop - 1 by omega]) hbyte
  refine ext_getElem? fun index => ?_
  rw [Span.slice, Span.slice, getElem?_take, getElem?_take, getElem?_drop, getElem?_drop]
  split
  next hindex =>
    obtain ⟨mark, hmark, hunmarked⟩ : ∃ mark, (dialect.marks text)[span.start + index]? =
        some mark ∧ mark.2 = false := by
      by_cases hlast : span.start + index = span.stop - 1
      · exact ⟨_, hlast ▸ hend, rfl⟩
      · have hbound : span.start + index < (dialect.marks text).length := by
          rw [marks, Scan.length_marks]
          omega
        refine ⟨_, getElem?_eq_getElem hbound, hbefore _ ?_⟩
        refine mem_of_getElem? (i := index) ?_
        rw [getElem?_take, if_pos (by omega), getElem?_drop, getElem?_eq_getElem hbound]
    obtain ⟨byte, isMarked⟩ := mark
    obtain rfl : isMarked = false := hunmarked
    obtain ⟨htext, hstripped⟩ := getElem?_of_unmarked hmark
    rw [htext, hstripped]
  · rfl

/-- The target of a declared value that is spelled as a numeral is the number as it is displayed. -/
theorem Target.eq_of_numeral {value : Span} {target : Target}
    (hsite : (value, target) ∈ sites text) (hsource : value.slice text = numeral.text) :
    ∃ name, target = ⟨name, value, numeral.shown, numeral.shown, true, false⟩ := by
  obtain ⟨item, hitem, declared, hdeclared, heq⟩ := exists_placed hsite
  obtain ⟨rfl, rfl⟩ := Prod.mk.inj heq
  obtain ⟨hlt, hbound⟩ := Declaration.value_le_of_placed hitem
  obtain ⟨hblock, hdeclaration⟩ := Declaration.mem_placed.mp hitem
  obtain ⟨byte, hmark, hnewline⟩ := @Declaration.marks_of_value _ _ _ _
    (mem_of_getElem? hblock) hdeclaration (item.value.stop - 1)
    (.inr (Nat.sub_add_cancel (Nat.one_le_of_lt hlt)))
  rw [stripComments, length_stripFrom] at hbound
  have hraw : item.value.slice (script.stripComments text) = numeral.text := by
    refine (slice_stripComments_of_end hlt hbound ?_ hmark hnewline).trans hsource
    intro byte hmem
    rw [hsource] at hmem
    exact ⟨Numeral.ne_of_mem_text hmem (by decide), Numeral.ne_of_mem_text hmem (by decide)⟩
  have hread : (declared.value, declared.span) = (.number numeral.number, item.value) := by
    obtain ⟨-, hdeclare⟩ := Option.ite_none_right_eq_some.mp hdeclared
    obtain rfl := Option.some.inj hdeclare
    rw [← numeral.readValue_text, ← hraw]
    rfl
  obtain ⟨hvalue, hspan⟩ := Prod.mk.inj hread
  refine ⟨declared.name, ?_⟩
  simp only [Declared.target, hvalue, hspan]
  rfl

/-- What is written in the place of a number that has become the text: the number as it was spelled
if it is the same, another number as it is, and anything else between quotes. -/
def Numeral.written (numeral : Numeral) (working : Text) : Text :=
  if working = numeral.shown then numeral.text
  else if Value.isNumeral working then working
  else utf8 "'" ++ working ++ utf8 "'"

/-- After a table whose first entry is for its spelling, a number is written as what has become of
it. -/
theorem Target.held_rewrite_numeral {new : Text} {span : Span}
    (hsource : span.slice text = numeral.text) (hne : new ≠ numeral.text) (later : Table)
    (name : Text) :
    (rewrite .css (⟨numeral.text, .plain new⟩ :: later)
      ⟨name, span, numeral.shown, numeral.shown, true, false⟩).held text =
      numeral.written (later.rewrite .css name
        (if numeral.shown = numeral.text then new else numeral.shown)) := by
  rw [rewrite_single rfl]
  rw [Numeral.rewrite_table hne]
  generalize Table.rewrite .css name later _ = working
  unfold held render Numeral.written
  simp only [Bool.true_and, beq_iff_eq, hsource]
  split
  · rfl
  · cases Value.isNumeral working <;> rfl

/-- No entry acts on a value without their tokens, whatever is chosen. -/
theorem Table.acts_pin {value : Text} {table : Table}
    (h : ∀ entry ∈ table, occursIn entry.token (dialect.stripComments value) = false)
    (pick : Topic → Text) (property : Text) :
    ∀ entry ∈ table.pin pick, entry.acts dialect property value = false := by
  intro entry hentry
  obtain ⟨origin, horigin, rfl⟩ := mem_map.mp hentry
  show (_ && occursIn origin.token (dialect.stripComments value)) = false
  rw [h origin horigin, Bool.and_false]

namespace Resolution

variable {σ : Type}

/-- The data of a program's resolution that does not fail, around one of its declared values. -/
theorem data_around {interaction : Interaction σ} {context : Context} {table : Table} {text : Text}
    {before after : Session σ} {resolution : Resolution}
    (hpath : ofPath context.path = .script)
    (hrun : (tryResolve interaction context table (Source.rules context.path text) text).run.run
      before = (.ok resolution, after)) {change : Target → Target}
    (hchange : change = rewrite .css (table.pin after.answers.verdict))
    {targets : List Target} (htargets : targets = (sites text).map fun site => change site.2)
    {place : Nat} {site : Span × Target} (hplace : (sites text)[place]? = some site) :
    resolution.data = Text.fill (text.take site.1.start) 0
        ((targets.take place).map fun target => (target.span, target.held text)) ++
      ((Span.mk site.1.start site.2.span.start).slice text ++ (change site.2).held text ++
        (Span.mk site.2.span.stop site.1.stop).slice text ++ text.fill site.1.stop
          ((targets.drop (place + 1)).map fun target => (target.span, target.held text))) := by
  have hsites := map_snd_sites hpath text
  have hdialect : (ofPath context.path).ofValue = .css := by rw [hpath]; rfl
  obtain ⟨hdata, -⟩ := tryResolve_rewrites hrun
  rw [hdialect, ← hchange, ← hsites, map_map] at hdata
  have hframes : targets.map frame = (ofRules text (Source.rules context.path text)).map frame := by
    rw [htargets, hchange, ← hsites, map_map, map_map]
    rfl
  obtain ⟨hordered, hkept⟩ := ordered_of_frames hframes
  have hspan : ∀ target, (change target).span = target.span := by
    rw [hchange]
    exact fun _ => rfl
  rw [← fill_held hspan htargets hplace, ← apply_eq_fill hordered hkept, htargets]
  exact hdata

/-- What becomes of a number of a program that is spelled as the token of the first entry. It turns
into the replacement if it is displayed as it is spelled, and stays as it is displayed otherwise,
and then the other entries go on from there; only in the first case the entry counts it. A table
without choices has a result if no token has a space at an end. A number that is displayed as it is
spelled is reduced, and a reduced one of at most fifteen significant digits in at most three hundred
bytes is displayed as it is spelled. -/
theorem resolveFile_numbers (interaction : Interaction σ) (context : Context) (numeral : Numeral)
    (new : Text) (later : Table) (text : Text) (before : Session σ)
    (hpath : Dialect.ofPath context.path = .script) (hne : new ≠ numeral.text)
    (place : Nat) (site : Span × Target) (hplace : (Target.sites text)[place]? = some site)
    (hsource : site.1.slice text = numeral.text) :
    (numeral.shown = numeral.text → Value.isReduced numeral.text = true) ∧
    (Value.isReduced numeral.text = true → (Value.significant numeral.text).length ≤ 15 →
      numeral.text.length ≤ 300 → numeral.shown = numeral.text) ∧
    ((∀ entry ∈ later, entry.mapping.asks = false) →
      (∀ entry ∈ later, entry.token.IsFlush) → ∃ resolution,
      (tryResolve interaction context (⟨numeral.text, .plain new⟩ :: later)
        (Source.rules context.path text) text).run.run before = (.ok resolution, before)) ∧
    ∀ (resolution : Resolution) (after : Session σ),
      (tryResolve interaction context (⟨numeral.text, .plain new⟩ :: later)
        (Source.rules context.path text) text).run.run before = (.ok resolution, after) →
      (resolveFile interaction context (⟨numeral.text, .plain new⟩ :: later)
        text).run.run before = (.ok resolution, after) ∧
      ∃ (table : Table) (targets : List Target) (first working : Text),
        table = Table.pin after.answers.verdict (⟨numeral.text, .plain new⟩ :: later) ∧
        targets = (Target.sites text).map (fun site => site.2.rewrite .css table) ∧
        first = (if numeral.shown = numeral.text then new else numeral.shown) ∧
        working = (later.pin after.answers.verdict).rewrite .css site.2.name first ∧
        resolution.data = Text.fill (text.take site.1.start) 0
            ((targets.take place).map fun target => (target.span, target.held text)) ++
          (numeral.written working ++ text.fill site.1.stop
            ((targets.drop (place + 1)).map fun target => (target.span, target.held text))) ∧
        Change.countOf (numeral.text, new) resolution.changes =
          sumBy (fun site => site.2.tally .css table (numeral.text, new)) (Target.sites text) ∧
        site.2.tally .css table (numeral.text, new) =
          (if numeral.shown = numeral.text then 1 else 0) +
            (later.pin after.answers.verdict).tally .css site.2.name first (numeral.text, new) ∧
        ((∀ entry ∈ later,
            Token.occursIn entry.token (Dialect.css.stripComments first) = false) →
          working = first ∧ site.2.tally .css table (numeral.text, new) =
            if numeral.shown = numeral.text then 1 else 0) := by
  obtain ⟨value, target⟩ := site
  obtain ⟨name, rfl⟩ := Target.eq_of_numeral (List.mem_of_getElem? hplace) hsource
  have hsites := Target.map_snd_sites hpath text
  have hdialect : (Dialect.ofPath context.path).ofValue = .css := by rw [hpath]; rfl
  refine ⟨Numeral.isReduced_of_shown, Numeral.shown_of_isReduced, fun hasks hflush => ?_,
    fun resolution after hrun => ⟨resolveFile_of_tryResolve hrun, ?_⟩⟩
  · have hspace : Byte.space ∉ numeral.text := fun hmem =>
      Numeral.ne_of_mem_text hmem (by decide) rfl
    obtain ⟨changes, hdecided⟩ := @tryResolve_decided
      (⟨numeral.text, .plain new⟩ :: later) σ interaction context text
      (List.forall_mem_cons.mpr ⟨rfl, hasks⟩)
      (List.forall_mem_cons.mpr ⟨Text.isFlush_of_notMem hspace, hflush⟩)
      (Source.rules context.path text)
    rw [hdecided]
    exact ⟨_, rfl⟩
  · -- Once the choices are made the first entry is the same, and it meets the number as displayed.
    let table : Table := ⟨numeral.text, .plain new⟩ :: later.pin after.answers.verdict
    let first := if numeral.shown = numeral.text then new else numeral.shown
    have hdata := data_around hpath hrun rfl rfl hplace
    have hcount := tryResolve_counts hrun
    rw [hdialect, ← hsites] at hcount
    have htally : Table.tally .css name table numeral.shown (numeral.text, new) = _ :=
      Numeral.tally_table hne (later.pin after.answers.verdict)
    refine ⟨table, _, first, (later.pin after.answers.verdict).rewrite .css name first, rfl, rfl,
      rfl, rfl, ?_, ?_, htally, fun hlater => ?_⟩
    · have hheld := Target.held_rewrite_numeral hsource hne (later.pin after.answers.verdict) name
      refine hdata.trans ?_
      simp only [Span.slice_empty, List.nil_append, List.append_nil]
      exact congrArg (fun written => _ ++ (written ++ _)) hheld
    · exact (hcount _).trans (sumBy_map ..)
    · have hidle := Table.acts_pin hlater after.answers.verdict name
      refine ⟨Table.rewrite_of_acts hidle, htally.trans ?_⟩
      rw [Table.tally_of_acts hidle]
      rfl

/-- A style object with a number that is spelled as it is displayed. -/
def spelledTop : Text :=
  utf8 "s=\x7btop:0.5,color:'var(--a)'\x7d"

/-- The number of `spelledTop`. -/
def half : Numeral where
  negative := false
  whole := utf8 "0"
  fraction := some (utf8 "5")
  isDigit_whole := by decide +kernel
  isDigit_fraction := by decide +kernel
  digits_ne_nil := by decide

theorem sites_spelledTop : Target.sites spelledTop =
    [(⟨7, 10⟩, ⟨utf8 "top", ⟨7, 10⟩, utf8 "0.5", utf8 "0.5", true, false⟩),
      (⟨17, 27⟩, ⟨utf8 "color", ⟨18, 26⟩, utf8 "var(--a)", utf8 "var(--a)", false, false⟩)] := by
  rw [sites, placed, Block.scan_of_closed [⟨2, 27⟩] (by decide) (by decide),
    mergeSort_of_pairwise (by decide)]
  decide

/-- The number of `spelledTop` is found by an entry for it, and counted. -/
theorem resolveFile_numbers_spelledTop :
    Dialect.ofPath (utf8 "s.js") = .script ∧ utf8 "8" ≠ half.text ∧
    (Target.sites spelledTop)[0]? =
      some (⟨7, 10⟩, ⟨utf8 "top", ⟨7, 10⟩, utf8 "0.5", utf8 "0.5", true, false⟩) ∧
    (Span.mk 7 10).slice spelledTop = half.text ∧ half.shown = half.text ∧
    ∃ (resolution : Resolution) (after : Session Unit) (behind : Text),
      (resolveFile Interaction.silent ⟨utf8 "s.js", false, none⟩
        [⟨half.text, .plain (utf8 "8")⟩] spelledTop).run.run Session.silent =
          (.ok resolution, after) ∧
      resolution.data = spelledTop.take 7 ++ (utf8 "8" ++ behind) ∧
      Change.countOf (half.text, utf8 "8") resolution.changes = 1 := by
  have hpath : ofPath (utf8 "s.js") = .script := by decide
  have hne : utf8 "8" ≠ half.text := by decide
  have hplace : (sites spelledTop)[0]? =
      some (⟨7, 10⟩, ⟨utf8 "top", ⟨7, 10⟩, utf8 "0.5", utf8 "0.5", true, false⟩) := by
    rw [sites_spelledTop]
    rfl
  have hsource : (Span.mk 7 10).slice spelledTop = half.text := by decide
  obtain ⟨-, hshown, hreturns, hresolved⟩ := resolveFile_numbers Interaction.silent
    ⟨utf8 "s.js", false, none⟩ half (utf8 "8") [] spelledTop Session.silent hpath hne 0 _ hplace
    hsource
  have hshown := hshown (by decide) (by decide) (by decide)
  obtain ⟨resolution, hrun⟩ := hreturns (by simp) (by simp)
  obtain ⟨hfile, table, targets, first, working, htable, -, hfirst, hworking, hdata, hcount, -⟩ :=
    hresolved resolution _ hrun
  rw [if_pos hshown] at hfirst
  obtain rfl : working = utf8 "8" := hworking.trans hfirst
  obtain rfl : table = [⟨half.text, .plain (utf8 "8")⟩] := htable
  have hwritten : half.written (utf8 "8") = utf8 "8" := by decide
  rw [hwritten] at hdata
  rw [sites_spelledTop] at hcount
  exact ⟨hpath, hne, hplace, hsource, hshown, resolution, _, _, hfile, hdata,
    hcount.trans (by decide)⟩

/-- The number of `halfTop` is not found by an entry for it. -/
theorem resolveFile_misses_number :
    (Target.sites halfTop)[0]? =
      some (⟨7, 9⟩, ⟨utf8 "top", ⟨7, 9⟩, utf8 "0.5", utf8 "0.5", true, false⟩) ∧
    (Span.mk 7 9).slice halfTop = utf8 ".5" ∧
    (resolveFile Interaction.silent ⟨utf8 "s.js", false, none⟩
      [⟨utf8 ".5", .plain (utf8 "8")⟩] halfTop).run.run Session.silent =
        (.ok ⟨halfTop, []⟩, Session.silent) := by
  refine ⟨by rw [sites_halfTop]; rfl, by decide, resolveFile_of_tryResolve ?_⟩
  rw [tryResolve, halfTop_targets]
  rfl

end Resolution

end Restyle
