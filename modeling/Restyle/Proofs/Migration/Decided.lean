import Mathlib.Data.List.Perm.Basic
import Restyle.Proofs.Change.Tally
import Restyle.Proofs.Mapping.Renaming
import Restyle.Proofs.Migration.Targets
import Restyle.Proofs.Migration.Verdict
import Restyle.Proofs.Value.Cuts
import Restyle.Proofs.Value.Parts

/-!
# Tables without choices

By a table without choices a file is resolved without a question, so that the resolution is a
function of the file. What becomes of a text is `Table.rewrite`, what becomes of a composite value
`Table.rewriteList`, and what becomes of a target `Target.rewrite`. That a resolution does just this
is `Resolution.resolveTargets_decides`, which also says what it records, up to order: what the
entries note in each target (`Target.notes`). It records nothing if no entry finds its token in a
target and has another text for it (`Target.Untouched`). Only if a token has a space at an end may a
character be cut, and the resolution end there (`Resolution.exists_of_panic`).
-/

namespace Restyle

open Change Dialect Entry List Table Target Token Value

open Resolution (spansParts WorkingPart partReplacements)

/-! ## Tables that do not ask -/

/-- Whether a replacement has to be chosen. -/
def Replacement.isChoice : Replacement → Bool
  | .one _ => false
  | .choice _ => true

/-- Whether a mapping may ask for a choice. -/
def Mapping.asks : Mapping → Bool
  | .plain _ => false
  | .conditional clauses => clauses.any fun clause => clause.replacement.isChoice

/-- A mapping that has a choice in some property may ask. -/
theorem Mapping.asks_of_replacementIn {mapping : Mapping} {property : Text} {candidates : List Text}
    (h : mapping.replacementIn? property = some (.choice candidates)) : mapping.asks := by
  cases mapping with
  | plain replacement => cases h
  | conditional clauses =>
    obtain ⟨clause, hfind, hreplacement⟩ := Option.map_eq_some_iff.mp h
    refine any_eq_true.mpr ⟨clause, mem_of_find?_eq_some hfind, ?_⟩
    rw [hreplacement]
    rfl

/-! ## What becomes of a text -/

/-- What an entry without choices puts in the place of its token: its replacement in the property,
or the token again. -/
def Entry.outcome (entry : Entry) (property : Text) : Text :=
  (entry.pick property).getD entry.token

variable (dialect : Dialect) (property : Text) (entry : Entry) (table : Table) (target : Target)
  (value : Text)

/-- Whether an entry has another text for its token and finds the token in a value, outside
comments. -/
def Entry.acts : Bool :=
  entry.outcome property != entry.token && occursIn entry.token (dialect.stripComments value)

/-- A value after an entry. -/
def Entry.rewrite : Text :=
  if entry.acts dialect property value then
    replaceToken dialect value entry.token (entry.outcome property)
  else value

/-- A value after the entries of a table, one after the other. -/
def Table.rewrite : Text :=
  table.foldl (fun value entry => entry.rewrite dialect property value) value

/-- The entries whose tokens stand across several parts. -/
def Table.across : Table :=
  table.filter fun entry => spansParts entry.token

/-- The entries whose tokens stand within a part. -/
def Table.inside : Table :=
  table.filter fun entry => !spansParts entry.token

/-- A token without a blank stands within a part. -/
theorem Table.across_eq_nil {table : Table}
    (h : ∀ entry ∈ table, Text.hasBlank entry.token = false) :
    across table = [] ∧ inside table = table := by
  constructor
  · exact filter_eq_nil_iff.mpr fun entry hmem => by simp [spansParts, h entry hmem]
  · exact filter_eq_self.mpr fun entry hmem => by simp [spansParts, h entry hmem]

/-- The parts of a value after the entries of a table, each in the form that it had, with what
stands between them. -/
def Table.rewriteParts : Text :=
  value.fill 0 ((codeParts dialect value).map fun span =>
    (span, fitForm (span.slice value) (table.rewrite dialect property (span.slice value))))

/-- A composite value after a table: first the tokens that stand across its parts are looked for,
then the others in the parts. -/
def Table.rewriteList : Text :=
  (inside table).rewriteParts dialect property ((across table).rewrite dialect property value)

/-- What an entry notes in texts of a property: how often it finds its token in their code, if it
has another text for it. -/
def Entry.note (texts : List Text) : List Change :=
  if entry.outcome property = entry.token then []
  else [⟨entry.token, entry.outcome property,
    sumBy (fun text => Token.count entry.token (dialect.stripComments text)) texts⟩]

/-- What the entries of a table note in texts, one after the other. -/
def Table.notes : Table → List Text → List Change
  | [], _ => []
  | entry :: table, texts =>
    entry.note dialect property texts ++
      Table.notes table (texts.map (entry.rewrite dialect property))

/-- What a table notes in a composite value: first as a whole and then in its parts. -/
def Table.notesList : List Change :=
  (across table).notes dialect property [value] ++ (inside table).notes dialect property
      ((codeParts dialect ((across table).rewrite dialect property value)).map
        fun span => span.slice ((across table).rewrite dialect property value))

namespace Target

/-- A target after a table. -/
def rewrite : Target :=
  { target with
    working :=
      if target.isComposite then table.rewriteList dialect target.name target.working
      else table.rewrite dialect target.name target.working }

/-- What a table notes in a target. -/
def notes : List Change :=
  if target.isComposite then table.notesList dialect target.name target.working
  else table.notes dialect target.name [target.working]

/-- The texts that a target is looked through by: the parts of a composite value, or the whole
value. -/
def texts : List Text :=
  if target.isComposite then
    (codeParts dialect target.working).map fun span => span.slice target.working
  else [target.working]

/-- The texts in which the token of an entry is looked for. One with a blank in it is looked for in
the whole value. -/
def searched (entry : Entry) : List Text :=
  if spansParts entry.token then [target.working] else target.texts dialect

theorem searched_eq {entry : Entry} (h : Text.hasBlank entry.token = false) :
    target.searched dialect entry = target.texts dialect := by
  rw [searched, spansParts, h, if_neg Bool.false_ne_true]

/-- No entry of the table finds its token in the target and has another text for it. -/
def Untouched : Prop :=
  ∀ entry ∈ table, ∀ value ∈ target.searched dialect entry,
    entry.acts dialect target.name value = false

end Target

variable {dialect property value entry table target} {texts : List Text}

/-- An entry that does not act leaves a value as it is. -/
theorem Entry.rewrite_of_acts (h : entry.acts dialect property value = false) :
    entry.rewrite dialect property value = value := by
  rw [Entry.rewrite, h, if_neg Bool.false_ne_true]

theorem Table.rewrite_of_acts (h : ∀ entry ∈ table, entry.acts dialect property value = false) :
    table.rewrite dialect property value = value := by
  induction table with
  | nil => rfl
  | cons entry table ih =>
    obtain ⟨hentry, hlater⟩ := forall_mem_cons.mp h
    rw [Table.rewrite, foldl_cons, Entry.rewrite_of_acts hentry]
    exact ih hlater

/-- An entry without choices has a replacement or none. -/
theorem Entry.replacementIn_of_asks (h : entry.mapping.asks = false) (property : Text) :
    entry.mapping.replacementIn? property = (entry.pick property).map .one := by
  unfold pick
  cases hreplacement : entry.mapping.replacementIn? property with
  | none => rfl
  | some replacement =>
    cases replacement with
    | one text => rfl
    | choice candidates => simp [Mapping.asks_of_replacementIn hreplacement] at h

theorem Table.asks_pin (pick : Topic → Text) (table : Table) :
    ∀ entry ∈ table.pin pick, entry.mapping.asks = false := by
  intro entry hmem
  obtain ⟨source, -, rfl⟩ := mem_map.mp hmem
  unfold Entry.pin Mapping.pin Mapping.asks
  cases source.mapping with
  | plain replacement => rfl
  | conditional clauses =>
    refine any_eq_false.mpr fun clause hclause => ?_
    obtain ⟨clause, -, rfl⟩ := mem_map.mp hclause
    unfold Clause.pin Replacement.pin Replacement.isChoice
    cases clause.replacement <;> simp

/-! ## Notes -/

/-- An entry acts in none of the texts exactly if what it notes counts nothing. -/
theorem Entry.note_eq_zero_iff :
    (∀ note ∈ entry.note dialect property texts, note.count = 0) ↔
      ∀ text ∈ texts, entry.acts dialect property text = false := by
  unfold note
  by_cases hsame : entry.outcome property = entry.token
  · simp [acts, hsame]
  · have hacts : ∀ text, entry.acts dialect property text = false ↔
        Token.count entry.token (dialect.stripComments text) = 0 := by
      intro text
      rw [acts, bne, beq_eq_false_iff_ne.mpr hsame, Bool.not_false, Bool.true_and,
        ← Bool.not_eq_true, occursIn_iff, Decidable.not_not]
    rw [if_neg hsame, forall_mem_singleton]
    exact sumBy_eq_zero_iff.trans (forall₂_congr fun text _ => (hacts text).symm)

theorem Entry.map_rewrite_of_acts (h : ∀ text ∈ texts, entry.acts dialect property text = false) :
    texts.map (entry.rewrite dialect property) = texts :=
  (map_congr_left fun text hmem => Entry.rewrite_of_acts (h text hmem)).trans (map_id _)

/-- No entry acts in one of the texts exactly if what the table notes counts nothing. -/
theorem Table.notes_eq_zero_iff :
    (∀ note ∈ table.notes dialect property texts, note.count = 0) ↔
      ∀ entry ∈ table, ∀ text ∈ texts, entry.acts dialect property text = false := by
  induction table generalizing texts with
  | nil => simp [Table.notes]
  | cons entry table ih =>
    rw [Table.notes, forall_mem_append, forall_mem_cons, note_eq_zero_iff]
    refine and_congr_right fun hidle => ?_
    rw [map_rewrite_of_acts hidle, ih]

/-- What a table notes is what its entries put in the place of their tokens. -/
theorem Table.exists_of_mem_notes {note : Change} (h : note ∈ table.notes dialect property texts) :
    ∃ entry ∈ table, entry.outcome property ≠ entry.token ∧
      note.pair = (entry.token, entry.outcome property) := by
  induction table generalizing texts with
  | nil => cases h
  | cons entry table ih =>
    rcases mem_append.mp h with hnote | hlater
    · unfold Entry.note at hnote
      split at hnote
      · cases hnote
      next hother =>
        obtain rfl := mem_singleton.mp hnote
        exact ⟨entry, mem_cons_self, hother, rfl⟩
    · obtain ⟨entry, hentry, hnote⟩ := ih hlater
      exact ⟨entry, mem_cons_of_mem _ hentry, hnote⟩

/-- What a table notes in a target is what its entries put in the place of their tokens. -/
theorem Target.exists_of_mem_notes {note : Change} (h : note ∈ target.notes dialect table) :
    ∃ entry ∈ table, entry.outcome target.name ≠ entry.token ∧
      note.pair = (entry.token, entry.outcome target.name) := by
  have hfilter : ∀ {condition : Entry → Bool} {texts : List Text},
      note ∈ Table.notes dialect target.name (table.filter condition) texts →
        ∃ entry ∈ table, entry.outcome target.name ≠ entry.token ∧
          note.pair = (entry.token, entry.outcome target.name) := by
    intro condition texts hnote
    obtain ⟨entry, hentry, hpair⟩ := Table.exists_of_mem_notes hnote
    exact ⟨entry, mem_of_mem_filter hentry, hpair⟩
  unfold Target.notes at h
  split at h
  · rcases mem_append.mp h with h | h
    · exact hfilter h
    · exact hfilter h
  · exact Table.exists_of_mem_notes h

/-! ## Parts of a value -/

/-- A part after an entry. -/
def Entry.rewritePart (dialect : Dialect) (property : Text) (part : WorkingPart) (entry : Entry) :
    WorkingPart :=
  if entry.acts dialect property part.text then
    ⟨entry.rewrite dialect property part.text, true⟩
  else part

/-- A part after an entry has the text that the entry makes of it. -/
theorem Entry.text_rewritePart (dialect : Dialect) (property : Text) (entry : Entry)
    (part : WorkingPart) : (entry.rewritePart dialect property part).text =
      entry.rewrite dialect property part.text := by
  unfold rewritePart
  split
  · rfl
  next hidle => exact (Entry.rewrite_of_acts (Bool.eq_false_iff.mpr hidle)).symm

/-- Where an entry has another text for its token, replacing the token in a part is what the entry
makes of the part. -/
theorem Resolution.WorkingPart.replace_eq (hother : entry.outcome property ≠ entry.token)
    (part : WorkingPart) : part.replace dialect entry.token (entry.outcome property) =
      entry.rewritePart dialect property part := by
  have hacts : entry.acts dialect property part.text ↔
      part.count dialect entry.token ≠ 0 := by
    rw [acts, bne, beq_eq_false_iff_ne.mpr hother, Bool.not_false, Bool.true_and, occursIn_iff]
    rfl
  unfold WorkingPart.replace rewritePart Entry.rewrite
  by_cases hcount : part.count dialect entry.token = 0
  · rw [if_pos (by simpa using hcount), if_neg (by simpa [hacts] using hcount)]
  · rw [if_neg (by simpa using hcount), if_pos (hacts.mpr hcount), if_pos (hacts.mpr hcount)]

/-- Parts after an entry have the texts that the entry makes of theirs. -/
theorem Entry.map_text_rewritePart (dialect : Dialect) (property : Text) (entry : Entry)
    (parts : List WorkingPart) :
    (parts.map (entry.rewritePart dialect property ·)).map WorkingPart.text =
      (parts.map WorkingPart.text).map (entry.rewrite dialect property) := by
  rw [map_map, map_map]
  exact map_congr_left fun part _ => entry.text_rewritePart ..

/-- A part after a table has the text that the table makes of it, the same as before if it has not
been changed. -/
theorem Table.foldl_rewritePart (dialect : Dialect) (property : Text) (table : Table)
    (part : WorkingPart) :
    (table.foldl (rewritePart dialect property) part).text =
        table.rewrite dialect property part.text ∧
      ((table.foldl (rewritePart dialect property) part).isChanged = false →
        part.isChanged = false ∧ table.rewrite dialect property part.text = part.text) := by
  induction table generalizing part with
  | nil => exact ⟨rfl, fun h => ⟨h, rfl⟩⟩
  | cons entry table ih =>
    obtain ⟨htext, hkept⟩ := ih (entry.rewritePart dialect property part)
    rw [text_rewritePart] at htext hkept
    refine ⟨htext, fun hunchanged => ?_⟩
    obtain ⟨hpart, hlater⟩ := hkept hunchanged
    -- An entry that acts marks the part as changed.
    have hidle : entry.acts dialect property part.text = false := by
      rw [Bool.eq_false_iff]
      intro hacts
      rw [rewritePart, hacts, if_pos rfl] at hpart
      cases hpart
    rw [rewritePart, hidle, if_neg Bool.false_ne_true] at hpart
    refine ⟨hpart, ?_⟩
    rw [Table.rewrite, foldl_cons]
    exact hlater.trans (Entry.rewrite_of_acts hidle)

/-- A changed part is replaced by its text, and no other part is. -/
theorem Resolution.lookup_partReplacements {parts : List WorkingPart} {part : WorkingPart}
    {start index : Nat} (h : (part, index) ∈ parts.zipIdx start) :
    ((parts.zipIdx start).filterMap fun item =>
        if item.1.isChanged then some (item.2, item.1.text) else none).lookup index =
      if part.isChanged then some part.text else none := by
  induction parts generalizing start with
  | nil => simp at h
  | cons first parts ih =>
    have hlater : ∀ item ∈ (parts.zipIdx (start + 1)).filterMap fun item =>
        if item.1.isChanged then some (item.2, item.1.text) else none, start < item.1 := by
      intro item hitem
      obtain ⟨source, hsource, heq⟩ := mem_filterMap.mp hitem
      have hbound := le_snd_of_mem_zipIdx hsource
      split at heq
      · obtain rfl := Option.some.inj heq
        exact hbound
      · cases heq
    rw [zipIdx_cons, filterMap_cons]
    rw [zipIdx_cons] at h
    rcases mem_cons.mp h with hfirst | hrest
    · obtain ⟨rfl, rfl⟩ := Prod.mk.inj hfirst
      cases hchanged : part.isChanged with
      | true => simp
      | false =>
        simp only [Bool.false_eq_true, if_false]
        exact lookup_eq_none_iff.mpr fun item hitem =>
          by simpa using Nat.ne_of_lt (hlater item hitem)
    · have hindex : (index == start) = false :=
        beq_eq_false_iff_ne.mpr (Nat.ne_of_gt (le_snd_of_mem_zipIdx hrest))
      rw [← ih hrest]
      cases first.isChanged with
      | true => simp [lookup_cons, hindex]
      | false => simp

/-- A composite value is rebuilt from working parts by filling in their texts, each in the form that
the part had. -/
theorem Value.rebuild_working {working : Span → WorkingPart}
    (h : ∀ span ∈ codeParts dialect value, (working span).isChanged = false →
      (working span).text = span.slice value) :
    rebuild dialect value (partReplacements ((codeParts dialect value).map working)) =
      value.fill 0 ((codeParts dialect value).map fun span =>
        (span, fitForm (span.slice value) (working span).text)) := by
  have hfitted : ∀ item ∈ (codeParts dialect value).zipIdx,
      fitted (partReplacements ((codeParts dialect value).map working)) item.2
        (item.1.slice value) = fitForm (item.1.slice value) (working item.1).text := by
    intro item hmem
    have hlookup : (partReplacements ((codeParts dialect value).map working)).lookup item.2 =
        if (working item.1).isChanged then some (working item.1).text else none := by
      refine @Resolution.lookup_partReplacements _ (working item.1) 0 item.2 ?_
      rw [zipIdx_map]
      exact mem_map_of_mem hmem
    rw [fitted, hlookup]
    cases hchanged : (working item.1).isChanged with
    | true => rfl
    | false =>
      rw [h item.1 (fst_mem_of_mem_zipIdx hmem) hchanged]
      exact (fitForm_of_head rfl).symm
  rw [rebuild_eq_fill]
  conv => rhs; rw [← zipIdx_map_fst 0 (codeParts dialect value), map_map]
  exact congrArg (value.fill 0) (map_congr_left fun item hmem =>
    congrArg (Prod.mk item.1) (hfitted item hmem))

/-- A target that is not composite has its value rewritten. -/
theorem Target.rewrite_single (h : target.isComposite = false) :
    target.rewrite dialect table =
      { target with working := table.rewrite dialect target.name target.working } := by
  rw [Target.rewrite, h, if_neg Bool.false_ne_true]

/-- A target is untouched exactly if what the table notes in it counts nothing. -/
theorem Target.untouched_iff : target.Untouched dialect table ↔
    ∀ note ∈ target.notes dialect table, note.count = 0 := by
  unfold Target.notes
  cases hcomposite : target.isComposite with
  | false =>
    rw [if_neg Bool.false_ne_true, notes_eq_zero_iff]
    simp [Untouched, searched, texts, hcomposite]
  | true =>
    rw [if_pos rfl, notesList, forall_mem_append, notes_eq_zero_iff, notes_eq_zero_iff]
    simp only [forall_mem_singleton]
    constructor
    · intro h
      have hacross : ∀ entry ∈ across table,
          entry.acts dialect target.name target.working = false := by
        intro entry hmem
        obtain ⟨hentry, hspans⟩ := mem_filter.mp hmem
        exact h entry hentry _ (by rw [searched, if_pos hspans]; exact mem_singleton_self _)
      refine ⟨hacross, fun entry hmem part hpart => ?_⟩
      rw [Table.rewrite_of_acts hacross] at hpart
      obtain ⟨hentry, hspans⟩ := mem_filter.mp hmem
      refine h entry hentry part ?_
      rwa [searched, if_neg (by simpa using hspans), texts, if_pos hcomposite]
    · rintro ⟨hacross, hinside⟩ entry hentry value hvalue
      rw [Table.rewrite_of_acts hacross] at hinside
      rw [searched, texts, if_pos hcomposite] at hvalue
      cases hspans : spansParts entry.token with
      | true =>
        rw [hspans, if_pos rfl, mem_singleton] at hvalue
        rw [hvalue]
        exact hacross entry (mem_filter.mpr ⟨hentry, hspans⟩)
      | false =>
        rw [hspans, if_neg Bool.false_ne_true] at hvalue
        exact hinside entry (mem_filter.mpr ⟨hentry, by simp [hspans]⟩) value hvalue

theorem Target.rewrite_of_untouched (h : target.Untouched dialect table) :
    target.rewrite dialect table = target := by
  rw [untouched_iff, Target.notes] at h
  cases hcomposite : target.isComposite with
  | false =>
    rw [hcomposite, if_neg Bool.false_ne_true, notes_eq_zero_iff] at h
    rw [rewrite_single hcomposite,
      Table.rewrite_of_acts fun entry hmem => h entry hmem _ (mem_singleton_self _)]
  | true =>
    rw [hcomposite, if_pos rfl, notesList, forall_mem_append, notes_eq_zero_iff,
      notes_eq_zero_iff] at h
    obtain ⟨hacross, hinside⟩ := h
    have hwhole : (across table).rewrite dialect target.name target.working = target.working :=
      Table.rewrite_of_acts fun entry hmem => hacross entry hmem _ (mem_singleton_self _)
    rw [hwhole] at hinside
    -- Each part is what it was, and so it has its form.
    have hparts : ((codeParts dialect target.working).map fun span => (span, fitForm
        (span.slice target.working) ((inside table).rewrite dialect target.name
          (span.slice target.working)))) =
        (codeParts dialect target.working).map fun span =>
          (span, span.slice target.working) := by
      refine map_congr_left fun span hspan => congrArg (Prod.mk span) ?_
      rw [Table.rewrite_of_acts fun entry hmem => hinside entry hmem _ (mem_map_of_mem hspan)]
      exact fitForm_of_head rfl
    have hworking : table.rewriteList dialect target.name target.working = target.working := by
      rw [rewriteList, hwhole, rewriteParts, hparts,
        Text.fill_slices (codeParts_ordered ..), drop_zero]
    rw [Target.rewrite, if_pos hcomposite, hworking]

theorem Target.map_rewrite_of_untouched {targets : List Target}
    (h : ∀ target ∈ targets, target.Untouched dialect table) :
    targets.map (Target.rewrite dialect table) = targets :=
  (map_congr_left fun target hmem => rewrite_of_untouched (h target hmem)).trans (map_id _)

namespace Resolution

/-! ## Resolutions without questions -/

variable {σ α β : Type} {interaction : Interaction σ} {context : Context} {text : Text}

/-- The dialogue returns the value at once, and it records the notes in some order. Unless the
tokens are flush it may panic. -/
def Decides (flush : Prop) (dialogue : Dialogue σ (α × List Change)) (value : α)
    (changes notes : List Change) : Prop :=
  (∃ recorded : List Change, recorded.Perm notes ∧
    dialogue = pure (value, recordAll changes recorded)) ∨ ¬ flush ∧ dialogue = throw .panic

namespace Decides

variable {flush : Prop} {dialogue : Dialogue σ (α × List Change)} {result : α}
  {changes notes notes' : List Change}

theorem pure (result : α) (changes : List Change) :
    Decides flush (Pure.pure (result, changes) : Dialogue σ (α × List Change)) result changes [] :=
  .inl ⟨[], .refl _, rfl⟩

theorem perm (h : Decides flush dialogue result changes notes) (hperm : notes.Perm notes') :
    Decides flush dialogue result changes notes' :=
  h.imp_left fun ⟨recorded, hrecorded, heq⟩ => ⟨recorded, hrecorded.trans hperm, heq⟩

theorem bind {next : α × List Change → Dialogue σ (β × List Change)} {result' : β}
    (h : Decides flush dialogue result changes notes)
    (hnext : ∀ after, Decides flush (next (result, after)) result' after notes') :
    Decides flush (dialogue >>= next) result' changes (notes ++ notes') := by
  obtain ⟨recorded, hrecorded, rfl⟩ | ⟨hflush, rfl⟩ := h
  · rw [pure_bind]
    refine (hnext _).imp_left ?_
    rintro ⟨recorded', hrecorded', hreturn⟩
    exact ⟨recorded ++ recorded', hrecorded.append hrecorded', by rw [hreturn, recordAll_append]⟩
  · exact .inr ⟨hflush, rfl⟩

theorem map (h : Decides flush dialogue result changes notes) (make : α → β) :
    Decides flush (dialogue >>= fun state => Pure.pure (make state.1, state.2)) (make result)
      changes notes := by
  rw [← append_nil notes]
  exact h.bind fun after => pure (make result) after

end Decides

/-- What an entry without choices replaces its token by. -/
theorem replacementOrToken_decided (hasks : entry.mapping.asks = false) (property : Text)
    (offset : Nat) :
    replacementOrToken interaction context text entry property offset =
      pure (entry.outcome property) := by
  unfold replacementOrToken replacementFor outcome
  rw [replacementIn_of_asks hasks]
  cases entry.pick property <;> rfl

variable {flush : Prop}

/-- A value is resolved by rewriting it. -/
theorem resolveValue_decided (hasks : entry.mapping.asks = false)
    (hflush : flush → entry.token.IsFlush) (target : Target) (changes : List Change) :
    Decides flush (resolveValue interaction context text dialect entry target changes)
      { target with working := entry.rewrite dialect target.name target.working } changes
      (entry.note dialect target.name [target.working]) := by
  rw [resolveValue_eq, replacementOrToken_decided hasks, pure_bind, replaceIn, Entry.rewrite,
    acts, note]
  by_cases hsame : entry.outcome target.name = entry.token
  · refine .inl ⟨_, .refl _, ?_⟩
    simp [hsame, recordAll]
  · cases hoccurs : occursIn entry.token (dialect.stripComments target.working) with
    | true =>
      cases hcut : replaceText? dialect target.working entry.token (entry.outcome target.name) with
      | none =>
        refine .inr ⟨fun h => ?_, ?_⟩
        · rw [replaceText?_eq_some dialect target.working _ (hflush h)] at hcut
          cases hcut
        · simp [hsame]
      | some working =>
        refine .inl ⟨_, .refl _, ?_⟩
        simp [hsame, recordAll, sumBy, replaceToken_of_replaceText? hcut]
    | false =>
      have hcount : Token.count entry.token (dialect.stripComments target.working) = 0 := by
        rwa [← Bool.not_eq_true, occursIn_iff, Decidable.not_not] at hoccurs
      refine .inl ⟨_, .refl _, ?_⟩
      simp [hsame, recordAll, sumBy, hcount, record]

/-- A value is resolved by a table by rewriting it. -/
theorem resolveWhole_decided (hasks : ∀ entry ∈ table, entry.mapping.asks = false)
    (hflush : ∀ entry ∈ table, flush → entry.token.IsFlush) (target : Target)
    (changes : List Change) :
    Decides flush (resolveWhole interaction context text dialect table target changes)
      { target with working := table.rewrite dialect target.name target.working } changes
      (table.notes dialect target.name [target.working]) := by
  induction table generalizing target changes with
  | nil => exact Decides.pure _ _
  | cons entry table ih =>
    obtain ⟨hentry, hlater⟩ := forall_mem_cons.mp hasks
    obtain ⟨hfirst, hrest⟩ := forall_mem_cons.mp hflush
    unfold resolveWhole at ih ⊢
    rw [foldlM_cons]
    exact (resolveValue_decided hentry hfirst target changes).bind fun after =>
      ih hlater hrest _ after

theorem map_rewritePart {parts : List WorkingPart}
    (h : ∀ part ∈ parts, entry.acts dialect property part.text = false) :
    parts.map (entry.rewritePart dialect property ·) = parts := by
  refine (map_congr_left fun part hmem => ?_).trans (map_id _)
  rw [rewritePart, h part hmem, if_neg Bool.false_ne_true]
  rfl

/-- The parts of a value are resolved by rewriting each of them. -/
theorem resolveParts_decided (hasks : entry.mapping.asks = false) (target : Target)
    (parts : List WorkingPart) (changes : List Change) :
    Decides flush (resolveParts interaction context text dialect target entry parts changes)
      (parts.map (entry.rewritePart dialect target.name ·)) changes
      (entry.note dialect target.name (parts.map WorkingPart.text)) := by
  have hcount : sumBy (fun text => Token.count entry.token (dialect.stripComments text))
      (parts.map WorkingPart.text) =
      parts.foldr (fun part sum => part.count dialect entry.token + sum) 0 := sumBy_map ..
  refine .inl ⟨_, .refl _, ?_⟩
  rw [resolveParts_eq, replacementOrToken_decided hasks]
  simp only [pure_bind, replaceInParts, note, hcount]
  by_cases hsame : entry.outcome target.name = entry.token
  · have hidle : parts.map (entry.rewritePart dialect target.name ·) = parts :=
      map_rewritePart fun part _ => by simp [acts, hsame]
    simp [hidle, hsame, recordAll]
  · have hparts : parts.map (WorkingPart.replace dialect entry.token (entry.outcome target.name)) =
        parts.map (entry.rewritePart dialect target.name ·) :=
      map_congr_left fun part _ => WorkingPart.replace_eq hsame part
    rw [if_neg hsame, beq_eq_false_iff_ne.mpr hsame, if_neg Bool.false_ne_true, hparts]
    split
    next hzero =>
      have hidle : parts.map (entry.rewritePart dialect target.name ·) = parts := by
        refine map_rewritePart fun part hmem => ?_
        have hnone : part.count dialect entry.token = 0 :=
          sumBy_eq_zero_iff.mp (beq_iff_eq.mp hzero) part hmem
        exact Bool.eq_false_iff.mpr fun hacts =>
          occursIn_iff.mp (Bool.and_eq_true_iff.mp hacts).2 hnone
      rw [hidle, beq_iff_eq.mp hzero]
      rfl
    · rfl

/-- The parts of a value are resolved by a table by rewriting each of them. -/
theorem foldlM_resolveParts_decided (hasks : ∀ entry ∈ table, entry.mapping.asks = false)
    (target : Target) (parts : List WorkingPart) (changes : List Change) :
    Decides flush (table.foldlM (fun state entry =>
        resolveParts interaction context text dialect target entry state.1 state.2)
        (parts, changes))
      (parts.map fun part => table.foldl (rewritePart dialect target.name) part) changes
      (table.notes dialect target.name (parts.map WorkingPart.text)) := by
  induction table generalizing parts changes with
  | nil =>
    have hparts : (parts.map fun part => [].foldl (rewritePart dialect target.name) part) =
        parts := map_id parts
    rw [hparts]
    exact Decides.pure _ _
  | cons entry table ih =>
    obtain ⟨hentry, hlater⟩ := forall_mem_cons.mp hasks
    have hmap : (parts.map fun part =>
        (entry :: table).foldl (rewritePart dialect target.name) part) =
        (parts.map (entry.rewritePart dialect target.name ·)).map fun part =>
          table.foldl (rewritePart dialect target.name) part := by
      rw [map_map]
      rfl
    rw [foldlM_cons, hmap, Table.notes, ← map_text_rewritePart]
    exact (resolveParts_decided hentry target parts changes).bind fun after => ih hlater _ after

/-- A composite value is rebuilt from its rewritten parts. -/
theorem rebuild_rewritePart (dialect : Dialect) (property : Text) (table : Table) (value : Text) :
    rebuild dialect value (partReplacements
      (((codeParts dialect value).map fun span => WorkingPart.mk (span.slice value) false).map
        fun part => table.foldl (rewritePart dialect property) part)) =
      table.rewriteParts dialect property value := by
  rw [map_map, rebuild_working, rewriteParts]
  · refine congrArg (value.fill 0) (map_congr_left fun span _ => congrArg (Prod.mk span) ?_)
    rw [Function.comp_apply, (foldl_rewritePart ..).1]
  · intro span _ hunchanged
    obtain ⟨htext, hkept⟩ := foldl_rewritePart dialect property table ⟨span.slice value, false⟩
    exact htext.trans (hkept hunchanged).2

/-- A composite value is resolved by rewriting it, first as a whole and then part by part. -/
theorem resolveComposite_decided (hasks : ∀ entry ∈ table, entry.mapping.asks = false)
    (hflush : ∀ entry ∈ table, flush → entry.token.IsFlush) {target : Target}
    (hcomposite : target.isComposite) (changes : List Change) :
    Decides flush (resolveComposite interaction context text dialect table target changes)
      (target.rewrite dialect table) changes (target.notes dialect table) := by
  have hmem : ∀ {condition : Entry → Bool}, ∀ entry ∈ table.filter condition,
      entry.mapping.asks = false := fun entry h => hasks entry (mem_of_mem_filter h)
  have hresult : target.rewrite dialect table =
      { target with
        working := (inside table).rewriteParts dialect target.name
          ((across table).rewrite dialect target.name target.working) } := by
    rw [Target.rewrite, hcomposite]
    rfl
  let base := (across table).rewrite dialect target.name target.working
  have hnotes : target.notes dialect table =
      (across table).notes dialect target.name [target.working] ++
        (inside table).notes dialect target.name (((codeParts dialect base).map
          fun span => WorkingPart.mk (span.slice base) false).map WorkingPart.text) := by
    rw [Target.notes, if_pos hcomposite, notesList, map_map]
    rfl
  rw [hresult, ← rebuild_rewritePart, hnotes]
  exact (resolveWhole_decided hmem (fun entry h => hflush entry (mem_of_mem_filter h)) target
    changes).bind fun after =>
    (foldlM_resolveParts_decided hmem _ _ after).map fun parts =>
      { target with working := rebuild dialect base (partReplacements parts) }

/-- Steps that decide single targets decide all that satisfy a condition. -/
theorem onTargets_decided {condition : Target → Bool}
    {step : Target → List Change → Dialogue σ (Target × List Change)} (next : Target → Target)
    (notes : Target → List Change) {targets : List Target}
    (hstep : ∀ target ∈ targets, condition target → ∀ changes,
      Decides flush (step target changes) (next target) changes (notes target))
    (changes : List Change) :
    Decides flush (onTargets condition step targets changes)
      (targets.map fun target => if condition target then next target else target) changes
      (targets.flatMap fun target => if condition target then notes target else []) := by
  induction targets generalizing changes with
  | nil => exact Decides.pure _ _
  | cons target targets ih =>
    obtain ⟨htarget, hlater⟩ := forall_mem_cons.mp hstep
    have hfirst : Decides flush (if condition target then step target changes
        else pure (target, changes)) (if condition target then next target else target) changes
        (if condition target then notes target else []) := by
      split
      next hcondition => exact htarget hcondition changes
      · exact Decides.pure _ _
    rw [onTargets_cons]
    exact hfirst.bind fun after => (ih hlater after).map (_ :: ·)

/-- The entries of a table, one after the other, decide the targets that are not composite. -/
theorem foldlM_resolveValue_decided (hasks : ∀ entry ∈ table, entry.mapping.asks = false)
    (hflush : ∀ entry ∈ table, flush → entry.token.IsFlush) (targets : List Target)
    (changes : List Change) :
    Decides flush (table.foldlM (fun state entry => onTargets (fun target => !target.isComposite)
        (resolveValue interaction context text dialect entry) state.1 state.2) (targets, changes))
      (targets.map fun target => if !target.isComposite then target.rewrite dialect table
        else target)
      changes (targets.flatMap fun target =>
        if !target.isComposite then target.notes dialect table else []) := by
  induction table generalizing targets changes with
  | nil =>
    have htargets : (targets.map fun target =>
        if !target.isComposite then target.rewrite dialect [] else target) = targets := by
      refine (map_congr_left fun target _ => ?_).trans (map_id _)
      cases hcomposite : target.isComposite with
      | true => rfl
      | false => exact rewrite_single hcomposite
    have hnotes : (targets.flatMap fun target =>
        if !target.isComposite then target.notes dialect [] else []) = [] := by
      refine flatMap_eq_nil_iff.mpr fun target _ => ?_
      cases hcomposite : target.isComposite <;> simp [Target.notes, hcomposite, Table.notes]
    rw [htargets, hnotes]
    exact Decides.pure _ _
  | cons entry table ih =>
    obtain ⟨hentry, hlater⟩ := forall_mem_cons.mp hasks
    obtain ⟨hhead, hrest⟩ := forall_mem_cons.mp hflush
    let step : Target → Target := fun target =>
      { target with working := entry.rewrite dialect target.name target.working }
    have hmap : (targets.map fun target =>
        if !target.isComposite then target.rewrite dialect (entry :: table) else target) =
        (targets.map fun target => if !target.isComposite then step target else target).map
          fun target => if !target.isComposite then target.rewrite dialect table else target := by
      rw [map_map]
      refine map_congr_left fun target _ => ?_
      cases hcomposite : target.isComposite with
      | true => simp [hcomposite]
      | false =>
        have hstep : (step target).isComposite = false := hcomposite
        simp only [Function.comp_apply, hcomposite, hstep, Bool.not_false, if_true]
        rw [rewrite_single hcomposite, rewrite_single hstep]
        rfl
    have hfirst := @onTargets_decided σ flush (fun target => !target.isComposite)
      (resolveValue interaction context text dialect entry) step
      (fun target => entry.note dialect target.name [target.working]) targets
      (fun target _ _ => resolveValue_decided hentry hhead target) changes
    rw [foldlM_cons, hmap]
    -- The entries note one after the other in all targets; they are put together for each target.
    refine (hfirst.bind fun after => ih hlater hrest _ after).perm ?_
    rw [flatMap_map]
    refine (flatMap_append_perm ..).trans (.of_eq ?_)
    refine flatMap_congr fun target _ => ?_
    cases hcomposite : target.isComposite with
    | true => simp [hcomposite]
    | false => simp [Target.notes, hcomposite, Table.notes, step]

/-- Targets are resolved by rewriting them, and what the table notes in them is recorded. -/
theorem resolveTargets_decides (hasks : ∀ entry ∈ table, entry.mapping.asks = false)
    (targets : List Target) :
    Decides (∀ entry ∈ table, entry.token.IsFlush)
      (resolveTargets interaction context text table targets)
      (targets.map (Target.rewrite (ofPath context.path).ofValue table)) []
      (targets.flatMap (Target.notes (ofPath context.path).ofValue table)) := by
  let dialect := (ofPath context.path).ofValue
  have hflush : ∀ entry ∈ table, (∀ entry ∈ table, entry.token.IsFlush) → entry.token.IsFlush :=
    fun entry hmem h => h entry hmem
  have hcomposites := @onTargets_decided σ _ isComposite
    (resolveComposite interaction context text dialect table) (Target.rewrite dialect table)
    (Target.notes dialect table) targets
    (fun target _ hcomposite => resolveComposite_decided hasks hflush hcomposite) []
  have hmap : targets.map (Target.rewrite dialect table) = (targets.map fun target =>
        if target.isComposite then target.rewrite dialect table else target).map
          fun target => if !target.isComposite then target.rewrite dialect table else target := by
    rw [map_map]
    refine map_congr_left fun target _ => ?_
    cases hcomposite : target.isComposite <;> simp [Target.rewrite, hcomposite]
  rw [hmap]
  refine (hcomposites.bind fun after => foldlM_resolveValue_decided hasks hflush _ after).perm ?_
  rw [flatMap_map]
  refine (flatMap_append_perm ..).trans (.of_eq ?_)
  refine flatMap_congr fun target _ => ?_
  change _ ++ (if !_ then Target.notes dialect table _ else []) = Target.notes dialect table target
  cases hcomposite : target.isComposite <;> simp [Target.rewrite, hcomposite]

/-- Notes in targets count nothing exactly if the targets are untouched. -/
theorem recordAll_eq_nil_iff_untouched {targets : List Target} {recorded : List Change}
    (h : recorded.Perm (targets.flatMap (Target.notes dialect table))) :
    recordAll [] recorded = [] ↔ ∀ target ∈ targets, target.Untouched dialect table := by
  rw [recordAll_eq_nil_iff, and_iff_right rfl]
  simp only [h.mem_iff, untouched_iff, mem_flatMap]
  exact ⟨fun h target htarget note hnote => h note ⟨target, htarget, hnote⟩,
    fun h note ⟨target, htarget, hnote⟩ => h target htarget note hnote⟩

/-- Targets are resolved by rewriting them. -/
theorem resolveTargets_decided (hasks : ∀ entry ∈ table, entry.mapping.asks = false)
    (hflush : ∀ entry ∈ table, entry.token.IsFlush) (targets : List Target) :
    ∃ changes, resolveTargets interaction context text table targets =
      pure (targets.map (Target.rewrite (ofPath context.path).ofValue table), changes) := by
  obtain ⟨recorded, -, heq⟩ | ⟨hspaced, -⟩ :=
    @resolveTargets_decides table σ interaction context text hasks targets
  · exact ⟨_, heq⟩
  · exact absurd hflush hspaced

/-- The rules of a text are resolved by rewriting its targets. -/
theorem tryResolve_decided (interaction : Interaction σ) (context : Context) (text : Text)
    (hasks : ∀ entry ∈ table, entry.mapping.asks = false)
    (hflush : ∀ entry ∈ table, entry.token.IsFlush) (rules : List Rule) :
    ∃ changes, tryResolve interaction context table rules text =
      pure ⟨apply ((ofRules text rules).map
        (Target.rewrite (ofPath context.path).ofValue table)) text, changes⟩ := by
  obtain ⟨changes, htargets⟩ :=
    @resolveTargets_decided table σ interaction context text hasks hflush (ofRules text rules)
  exact ⟨changes, by rw [tryResolve, htargets]; rfl⟩

/-- Whoever answers, the targets are rewritten by the table in which the choices are made, and what
that table notes in them is recorded. -/
theorem resolveTargets_records {before after : Session σ} {origins targets : List Target}
    {changes : List Change}
    (h : (resolveTargets interaction context text table origins).run.run before =
      (.ok (targets, changes), after)) :
    targets = origins.map (Target.rewrite (ofPath context.path).ofValue
        (table.pin after.answers.verdict)) ∧
      ∃ recorded : List Change, recorded.Perm (origins.flatMap (Target.notes
        (ofPath context.path).ofValue (table.pin after.answers.verdict))) ∧
        changes = recordAll [] recorded := by
  have hpinned := (resolveTargets_follows interaction Interaction.silent context context text rfl
    table origins).agrees before _ after after.answers h rfl ⟨prefix_refl _, fun _ => rfl⟩
  have hrun := congrArg (fun dialogue : Dialogue Unit (List Target × List Change) =>
    (dialogue.run.run Session.silent).1) hpinned
  obtain ⟨recorded, hperm, hdecided⟩ | ⟨-, hpanic⟩ := @resolveTargets_decides _ Unit
    Interaction.silent context text (table.asks_pin after.answers.verdict) origins
  · rw [hdecided] at hrun
    obtain ⟨rfl, rfl⟩ := Prod.mk.inj (Except.ok.inj hrun)
    exact ⟨rfl, recorded, hperm, rfl⟩
  · rw [hpanic] at hrun
    cases hrun

/-- A resolution that does not fail rewrites the targets of the file by the table in which the
choices are made, and records what that table notes in them. -/
theorem tryResolve_records {before after : Session σ} {resolution : Resolution}
    (h : (tryResolve interaction context table (Source.rules context.path text) text).run.run
      before = (.ok resolution, after)) :
    ∃ recorded : List Change,
      recorded.Perm ((ofRules text (Source.rules context.path text)).flatMap
        (Target.notes (ofPath context.path).ofValue (table.pin after.answers.verdict))) ∧
      resolution = ⟨apply ((ofRules text (Source.rules context.path text)).map
        (Target.rewrite (ofPath context.path).ofValue (table.pin after.answers.verdict)))
        text, recordAll [] recorded⟩ := by
  obtain ⟨targets, htargets, hdata⟩ := tryResolve_targets h
  obtain ⟨rfl, recorded, hperm, hchanges⟩ := resolveTargets_records htargets
  refine ⟨recorded, hperm, ?_⟩
  rw [← hdata, ← hchanges]

/-- A resolution that does not fail rewrites the targets of the file by the table in which the
choices are made. -/
theorem tryResolve_rewrites {before after : Session σ} {resolution : Resolution}
    (h : (tryResolve interaction context table (Source.rules context.path text) text).run.run
      before = (.ok resolution, after)) :
    resolution.data = apply
        ((ofRules text (Source.rules context.path text)).map (Target.rewrite
          (ofPath context.path).ofValue (table.pin after.answers.verdict))) text ∧
      (resolution.changes = [] ↔ ∀ target ∈ ofRules text (Source.rules context.path text),
        target.Untouched (ofPath context.path).ofValue
          (table.pin after.answers.verdict)) := by
  obtain ⟨recorded, hperm, rfl⟩ := tryResolve_records h
  exact ⟨rfl, recordAll_eq_nil_iff_untouched hperm⟩

variable {rules : List Rule} {before after : Session σ}

/-- A resolution cuts a character only for a token that has a space at an end. -/
theorem exists_of_panic (h : (tryResolve interaction context table rules text).run.run before =
      (.error .panic, after)) :
    ∃ entry ∈ table, ¬ entry.token.IsFlush := by
  have hpinned := (tryResolve_follows interaction Interaction.silent context context text rfl table
    rules).agrees before _ after after.answers h rfl ⟨prefix_refl _, fun _ => rfl⟩
  refine Classical.byContradiction fun hnone => ?_
  have hflush : ∀ entry ∈ table.pin after.answers.verdict, entry.token.IsFlush :=
    forall_mem_map.mpr fun entry hmem =>
      Classical.not_not.mp fun hspaced => hnone ⟨entry, hmem, hspaced⟩
  obtain ⟨changes, hdecided⟩ := tryResolve_decided Interaction.silent context text
    (table.asks_pin after.answers.verdict) hflush rules
  rw [hdecided] at hpinned
  have hrun := congrArg (fun dialogue : Dialogue Unit Resolution =>
    (dialogue.run.run Session.silent).1) hpinned
  cases hrun

/-- Resolving a file succeeds, unless it cuts a character for a token with a space at an end. -/
theorem resolveFile_returns (interaction : Interaction σ) (context : Context) (table : Table)
    (text : Text) (before : Session σ) :
    (∃ resolution after,
      (resolveFile interaction context table text).run.run before = (.ok resolution, after)) ∨
    (∃ after,
      (resolveFile interaction context table text).run.run before = (.error .panic, after)) ∧
      ∃ entry ∈ table, ¬ entry.token.IsFlush := by
  rcases hrun : (tryResolve interaction context table (Source.rules context.path text)
    text).run.run before with ⟨(error | _) | resolution, after⟩
  · exact .inl ⟨_, _, resolveFile_of_error hrun⟩
  · exact .inr ⟨⟨_, resolveFile_of_outcome hrun rfl⟩, exists_of_panic hrun⟩
  · exact .inl ⟨_, _, resolveFile_of_tryResolve hrun⟩

/-- A resolution that does not fail succeeds if no token has a space at an end. -/
theorem exists_ok {outcome : Except Halt Resolution}
    (h : (tryResolve interaction context table rules text).run.run before = (outcome, after))
    (hok : Dialogue.hasFailed outcome = false) (hflush : ∀ entry ∈ table, entry.token.IsFlush) :
    ∃ resolution, outcome = .ok resolution := by
  rcases outcome with (error | _) | resolution
  · cases hok
  · obtain ⟨entry, hmem, hspaced⟩ := exists_of_panic h
    exact absurd (hflush entry hmem) hspaced
  · exact ⟨resolution, rfl⟩

end Resolution

end Restyle
