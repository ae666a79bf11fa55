import Restyle.Proofs.Migration.Changes

/-!
# Where changes come from

Every change of a resolution is licensed by the table: `Resolution.resolveFile_licensed`. Its token
is the token of an entry that offers the replacement in a property of the file (`Entry.Offers`), as
the plain replacement or by the first clause that covers the property, which has it by itself or
among its candidates. Whatever the answers were, what is recorded is what the table notes in which
they are filled in, and that its entries offer (`Target.offers_of_mem_notes`). The cache is assumed
to hold answers that were offered, and does so again afterwards.
-/

namespace Restyle

open List

/-! ## What an entry offers -/

/-- The entry has the text for its token in a property. -/
def Entry.Offers (entry : Entry) (property text : Text) : Prop :=
  entry.mapping = .plain text ∨
    ∃ earlier clause later, entry.mapping = .conditional (earlier ++ clause :: later) ∧
      (∀ other ∈ earlier, other.covers property = false) ∧ clause.covers property ∧
      text ∈ clause.replacement.texts

namespace Entry

variable {entry : Entry} {property text : Text}

/-- An entry offers the texts of the replacement that decides in the property. -/
theorem offers_of_replacementIn {replacement : Replacement}
    (h : entry.mapping.replacementIn? property = some replacement)
    (htext : text ∈ replacement.texts) : entry.Offers property text := by
  cases hmapping : entry.mapping with
  | plain plain =>
    rw [hmapping] at h
    obtain rfl := Option.some.inj h
    rw [mem_singleton.mp htext]
    exact .inl hmapping
  | conditional clauses =>
    rw [hmapping] at h
    obtain ⟨clause, hfind, rfl⟩ := Option.map_eq_some_iff.mp h
    obtain ⟨hcovers, earlier, later, rfl, hearlier⟩ := find?_eq_some_iff_append.mp hfind
    refine .inr ⟨earlier, clause, later, hmapping, fun other hother => ?_, hcovers, htext⟩
    simpa using hearlier other hother

/-- What an entry puts in the place of its token, once the choices are made from the candidates, it
offers. -/
theorem offers_of_pin {pick : Topic → Text}
    (hpick : ∀ topic, pick topic = topic.token ∨ pick topic ∈ topic.candidates)
    (hne : (entry.pin pick).outcome property ≠ entry.token) :
    entry.Offers property ((entry.pin pick).outcome property) := by
  have hpinned : (entry.pin pick).mapping.replacementIn? property =
      (entry.mapping.replacementIn? property).map (Replacement.pin pick entry.token) :=
    Mapping.replacementIn?_pin ..
  unfold Entry.outcome Entry.pick at hne ⊢
  rw [hpinned] at hne ⊢
  cases hreplacement : entry.mapping.replacementIn? property with
  | none =>
    rw [hreplacement] at hne
    exact absurd rfl hne
  | some replacement =>
    rw [hreplacement] at hne
    refine offers_of_replacementIn hreplacement ?_
    cases replacement with
    | one text => exact mem_singleton_self text
    | choice candidates => exact (hpick ⟨entry.token, candidates⟩).resolve_left hne

end Entry

/-! ## Changes of a kind -/

/-- The changes are about pairs of a kind, one for each pair and none that counts nothing. -/
structure Change.Among (kind : Text × Text → Prop) (changes : List Change) : Prop where
  distinct : Change.Distinct changes
  isKind : ∀ pair ∈ changes.map Change.pair, kind pair

variable {kind : Text × Text → Prop} {target : Target}

theorem Change.Among.recordAll {notes : List Change} (h : ∀ note ∈ notes, kind note.pair) :
    Change.Among kind (Change.recordAll [] notes) := by
  refine ⟨(distinct_recordAll notes).1, fun pair hpair => ?_⟩
  rw [pairs_recordAll, noted, mem_eraseDups] at hpair
  obtain ⟨note, hnote, rfl⟩ := mem_map.mp hpair
  exact h note (mem_filter.mp hnote).1

/-- A target has one of the file's names. -/
theorem Target.exists_property {text : Text} {rules : List Rule} (h : target ∈ ofRules text rules) :
    ∃ property ∈ rules.flatMap Rule.properties, property.name = target.name := by
  obtain ⟨property, hproperty, rfl⟩ :=
    mem_map.mp ((distinct_sublist ..).subset (mem_mergeSort.mp h))
  exact ⟨property, hproperty, rfl⟩

/-- What a table notes in a target, once its choices are made from the candidates, its entries
offer. -/
theorem Target.offers_of_mem_notes {dialect : Dialect} {table : Table} {pick : Topic → Text}
    {note : Change} (hpick : ∀ topic, pick topic = topic.token ∨ pick topic ∈ topic.candidates)
    (h : note ∈ target.notes dialect (table.pin pick)) :
    note.replaced ≠ note.replacement ∧ ∃ entry ∈ table, entry.token = note.replaced ∧
      entry.Offers target.name note.replacement := by
  obtain ⟨pinned, hpinned, hother, hpair⟩ := Target.exists_of_mem_notes h
  obtain ⟨entry, hentry, rfl⟩ := mem_map.mp hpinned
  obtain ⟨hreplaced, hreplacement⟩ := Prod.mk.inj hpair
  rw [hreplaced, hreplacement]
  exact ⟨hother.symm, entry, hentry, rfl, Entry.offers_of_pin hpick hother⟩

namespace Resolution

variable {σ : Type}

/-- Resolving a file succeeds, unless it cuts a character for a token with a space at an end, and
every change is licensed by the table: there is one change at most for each pair of texts, it counts
something, the texts differ, and an entry of the table with the first for its token offers the
second in a property of the file. The settled choices stay among those offered. -/
theorem resolveFile_licensed (interaction : Interaction σ) (context : Context) (table : Table)
    (text : Text) (before : Session σ) (hbefore : before.Admitted) :
    ∃ (outcome : Except Halt Resolution) (after : Session σ),
      (resolveFile interaction context table text).run.run before = (outcome, after) ∧
      after.Admitted ∧
      (outcome = .error .panic ∧ (∃ entry ∈ table, ¬ entry.token.IsFlush) ∨
        ∃ resolution : Resolution, outcome = .ok resolution ∧
        (resolution.changes.map fun change => (change.replaced, change.replacement)).Nodup ∧
        ∀ change ∈ resolution.changes, 1 ≤ change.count ∧ change.replaced ≠ change.replacement ∧
          ∃ entry ∈ table, entry.token = change.replaced ∧
            ∃ property ∈ (Source.rules context.path text).flatMap Rule.properties,
              entry.Offers property.name change.replacement) := by
  rcases hrun : (resolveFile interaction context table text).run.run before with ⟨outcome, after⟩
  obtain ⟨events, hpath, -⟩ := resolveFile_converses interaction context table text _ _ _ hrun
  refine ⟨outcome, after, rfl, hpath.admitted hbefore, ?_⟩
  obtain ⟨hattempt, hok⟩ | ⟨error, middle, -, rfl, -⟩ := resolveFile_cases hrun
  · rcases outcome with (error | _) | resolution
    · cases hok
    · exact .inl ⟨rfl, exists_of_panic hattempt⟩
    obtain ⟨recorded, hperm, rfl⟩ := tryResolve_records hattempt
    have hverdict := (hpath.admitted hbefore).verdict
    have hamong : Change.Among (fun pair => pair.1 ≠ pair.2 ∧ ∃ entry ∈ table,
        entry.token = pair.1 ∧
        ∃ property ∈ (Source.rules context.path text).flatMap Rule.properties,
          entry.Offers property.name pair.2) (Change.recordAll [] recorded) := by
      refine Change.Among.recordAll fun note hnote => ?_
      obtain ⟨target, htarget, hnote⟩ := mem_flatMap.mp (hperm.mem_iff.mp hnote)
      obtain ⟨hne, entry, hentry, htoken, hoffers⟩ := Target.offers_of_mem_notes hverdict hnote
      obtain ⟨property, hproperty, hname⟩ := Target.exists_property htarget
      exact ⟨hne, entry, hentry, htoken, property, hproperty, hname ▸ hoffers⟩
    refine .inr ⟨_, rfl, hamong.distinct.pairs, fun change hchange => ?_⟩
    exact ⟨Nat.pos_of_ne_zero (hamong.distinct.count_ne_zero change hchange),
      hamong.isKind change.pair (mem_map_of_mem hchange)⟩
  · -- After an error there are no changes.
    exact .inr ⟨_, rfl, nodup_nil, by simp [unchanged]⟩

/-- The answer to the only question of `halfTop` is a change that the entry licenses. -/
theorem resolveFile_licensed_choiceEntry :
    Session.answeredOnce.Admitted ∧
    ∃ after,
      (resolveFile (Script.interaction true) ⟨utf8 "s.js", true, none⟩ [Session.choiceEntry]
        halfTop).run.run Session.answeredOnce =
        (.ok ⟨utf8 "s=\x7btop:.5,color:'var(--b)'\x7d", [⟨utf8 "--a", utf8 "--b", 1⟩]⟩, after) ∧
      after.Admitted ∧
      ∃ entry ∈ [Session.choiceEntry], entry.token = utf8 "--a" ∧
        ∃ property ∈ (Source.rules (utf8 "s.js") halfTop).flatMap Rule.properties,
          entry.Offers property.name (utf8 "--b") := by
  have hadmitted : Session.answeredOnce.Admitted := by
    intro topic choice hfind
    cases hfind
  obtain ⟨outcome, after, hrun, hafter, hcases⟩ := resolveFile_licensed
    (Script.interaction true) ⟨utf8 "s.js", true, none⟩ [Session.choiceEntry] halfTop
    Session.answeredOnce hadmitted
  obtain ⟨answered, hanswered⟩ : ∃ after,
      (tryResolve (Script.interaction true) ⟨utf8 "s.js", true, none⟩ [Session.choiceEntry]
        (Source.rules (utf8 "s.js") halfTop) halfTop).run.run Session.answeredOnce =
      (.ok ⟨utf8 "s=\x7btop:.5,color:'var(--b)'\x7d", [⟨utf8 "--a", utf8 "--b", 1⟩]⟩, after) := by
    rw [tryResolve, halfTop_targets]
    exact ⟨_, rfl⟩
  have heq := hrun.symm.trans (resolveFile_of_tryResolve hanswered)
  obtain ⟨rfl, rfl⟩ := Prod.mk.inj heq
  obtain ⟨hpanic, -⟩ | ⟨resolution, hresolution, -, hlicensed⟩ := hcases
  · cases hpanic
  obtain rfl := Except.ok.inj hresolution
  obtain ⟨-, -, hentry⟩ := hlicensed _ (mem_singleton_self _)
  exact ⟨hadmitted, after, hrun, hafter, hentry⟩

end Resolution

end Restyle
