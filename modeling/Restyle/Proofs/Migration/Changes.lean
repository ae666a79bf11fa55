import Restyle.Proofs.Migration.Comments

/-!
# What the changes tell

A resolution records no change exactly if no entry finds its token in a declared value and has
another text for it, and then the file stays as it is. The converse fails where entries undo one
another: the table `swapNames` takes a name to another and back (`resolveFile_swaps_back`). For
tables of custom properties this is the only way. They rename the names in the values
(`Plan.rewrite_eq`), the renamed file is read as the first one, and so it is the first one exactly
if every name comes back (`apply_renamed_eq_iff`). If no replacement is a token, none comes back.
All this is `resolveFile_changes_eq_nil_iff`.
-/

namespace Restyle

open Dialect List Piece Target

open Token (isCustomName isCustomName_iff)
open Value (Reads)

/-! ## Names that are renamed to themselves -/

variable {pieces : List Piece} {isOpen : Bool}

/-- The names among canonical pieces are names of custom properties. -/
theorem Piece.isCustomName_of_mem {name : Text} (h : Canonical isOpen pieces)
    (hmem : .name name ∈ pieces) : isCustomName name := by
  induction pieces generalizing isOpen with
  | nil => cases hmem
  | cons piece pieces ih =>
    cases piece with
    | byte source shown => exact ih h.2 (by simpa using hmem)
    | name text =>
      obtain ⟨-, hname, -, hrest⟩ := h
      rcases mem_cons.mp hmem with heq | hlater
      · rwa [Piece.name.inj heq]
      · exact ih hrest hlater

/-- If renaming leaves a mask as it is, it leaves every name as it is. -/
theorem Piece.rename_eq_self_of_mask {change : Text → Text}
    (hchange : ∀ name, isCustomName name → isCustomName (change name))
    (h : Canonical isOpen pieces) (hmask : mask (pieces.map (rename change)) = mask pieces) :
    ∀ name, .name name ∈ pieces → change name = name := by
  induction pieces generalizing isOpen with
  | nil => simp
  | cons piece pieces ih =>
    cases piece with
    | byte source shown =>
      obtain ⟨-, hrest⟩ := h
      have hlater : mask (pieces.map (rename change)) = mask pieces := (cons.inj hmask).2
      intro name hname
      refine ih hrest hlater name ?_
      simpa using hname
    | name text =>
      -- The name is the run at the start of the mask, before and after.
      obtain ⟨-, hnew, hafter, -⟩ := h.rename hchange
      obtain ⟨-, hname, hbefore, hrest⟩ := h
      have hsplit : change text ++ mask (pieces.map (rename change)) = text ++ mask pieces := hmask
      have hsame : change text = text := by
        have hrun := congrArg (takeWhile Token.isIdentifierByte) hsplit
        rwa [takeWhile_name hnew hafter, takeWhile_name hname hbefore] at hrun
      rw [hsame] at hsplit
      have hlater := ih hrest (append_cancel_left hsplit)
      intro name hmem
      rcases mem_cons.mp hmem with heq | hmem
      · rw [Piece.name.inj heq, hsame]
      · exact hlater name hmem

/-! ## Names that are used -/

/-- The name of a custom property stands in the code of a target's value, or of a part of it. -/
def Target.Uses (dialect : Dialect) (target : Target) (name : Text) : Prop :=
  isCustomName name ∧
    ∃ value ∈ target.texts dialect, Token.occursIn name (dialect.stripComments value)

namespace Plan

variable {dialect : Dialect} {plan : Plan} {table : Table}

/-- The names that a target uses are those among the pieces of its plan. -/
theorem uses_iff (hplan : plan.AtStart dialect) {name : Text} :
    plan.target.Uses dialect name ↔
      isCustomName name ∧ ∃ part ∈ plan.parts, .name name ∈ part.pieces := by
  rw [Target.Uses, hplan.texts]
  refine and_congr_right fun hname => ?_
  have hoccurs : ∀ part ∈ plan.parts,
      (Token.occursIn name (dialect.stripComments part.text) ↔ .name name ∈ part.pieces) := by
    intro part hmem
    rw [Token.occursIn_iff, (hplan.parts part hmem).reads.count hname, ← Nat.pos_iff_ne_zero,
      count_pos_iff]
  constructor
  · rintro ⟨value, hvalue, hoccursIn⟩
    obtain ⟨part, hmem, rfl⟩ := mem_map.mp hvalue
    exact ⟨part, hmem, (hoccurs part hmem).mp hoccursIn⟩
  · rintro ⟨part, hmem, hpiece⟩
    exact ⟨part.text, mem_map_of_mem hmem, (hoccurs part hmem).mpr hpiece⟩

/-- A name among the pieces of a plan is used by its target. -/
theorem uses_of_mem (hplan : plan.AtStart dialect) {part : PartPlan}
    (hmem : part ∈ plan.parts) {name : Text} (hname : .name name ∈ part.pieces) :
    plan.target.Uses dialect name :=
  (uses_iff hplan).mpr
    ⟨isCustomName_of_mem (hplan.parts part hmem).reads.canonical hname, part, hmem, hname⟩

/-- A naming touches a target unless every entry leaves the names as they are that it uses. -/
theorem untouched_iff (hplan : plan.AtStart dialect)
    (htable : table.IsNaming) :
    plan.target.Untouched dialect table ↔ ∀ name, plan.target.Uses dialect name →
      ∀ entry ∈ table, entry.rename plan.target.name name = name := by
  have hsearched : ∀ entry ∈ table, plan.target.searched dialect entry =
      plan.parts.map PartPlan.text := by
    intro entry hentry
    rw [searched_eq _ _ (htable.hasBlank _ hentry), hplan.texts]
  have hacts : ∀ entry ∈ table, ∀ part ∈ plan.parts,
      (entry.acts dialect plan.target.name part.text ↔
        entry.outcome plan.target.name ≠ entry.token ∧ .name entry.token ∈ part.pieces) :=
    fun entry hentry part hpart => (hplan.parts part hpart).reads.acts_iff
      (isCustomName_iff.mpr (htable.token entry hentry)) _
  constructor
  · intro h name huses entry hentry
    obtain ⟨-, part, hpart, hname⟩ := (uses_iff hplan).mp huses
    rw [Entry.rename_eq]
    split
    next heq =>
      subst heq
      refine Classical.byContradiction fun hne => ?_
      have hidle := h entry hentry part.text (by
        rw [hsearched entry hentry]
        exact mem_map_of_mem hpart)
      rw [(hacts entry hentry part hpart).mpr ⟨hne, hname⟩] at hidle
      cases hidle
    · rfl
  · intro h entry hentry value hvalue
    rw [hsearched entry hentry] at hvalue
    obtain ⟨part, hpart, rfl⟩ := mem_map.mp hvalue
    rw [Bool.eq_false_iff]
    intro hact
    obtain ⟨hne, hname⟩ := (hacts entry hentry part hpart).mp hact
    have hsame := h entry.token (uses_of_mem hplan hpart hname) entry hentry
    rw [Entry.rename_eq, if_pos rfl] at hsame
    exact hne hsame

/-- A naming leaves the value of a target as it is exactly if it leaves the names as they are that
the target uses. -/
theorem renamed_eq_iff (hplan : plan.AtStart dialect)
    (htable : table.IsNaming) :
    (plan.renamed table).working = plan.target.initial ↔ ∀ name, plan.target.Uses dialect name →
      table.rename plan.target.name name = name := by
  constructor
  · intro h name huses
    obtain ⟨-, part, hpart, hname⟩ := (uses_iff hplan).mp huses
    -- The renamed parts are those of the same value, so each is what it was.
    have htexts := texts_eq hplan hplan htable rfl h.symm
    have hpart' : part.text =
        sources (part.pieces.map (rename (table.rename plan.target.name))) :=
      map_inj_left.mp htexts part hpart
    have hreads := (hplan.parts part hpart).reads
    have hrenamed := hreads.rename fun _ => htable.isCustomName_rename plan.target.name
    refine rename_eq_self_of_mask (fun _ => htable.isCustomName_rename plan.target.name)
      hreads.canonical ?_ name hname
    rw [hrenamed.mask, ← hpart', hreads.mask]
  · intro h
    have hparts : plan.parts.map (fun part => (part.span,
        sources (part.pieces.map (rename (table.rename plan.target.name))))) =
        plan.parts.map fun part => (part.span, part.text) := by
      refine map_congr_left fun part hpart => ?_
      rw [map_rename_eq_self fun name hname => h name (uses_of_mem hplan hpart hname)]
      rfl
    rw [renamed, hparts]
    exact hplan.fill_texts

end Plan

namespace Resolution

open StyleObject (styledPlaces styledView)

variable {σ : Type} {path text : Text} {table : Table} {plans : List Plan}

/-- If a naming leaves a file as it is, it leaves the values of its targets as they are. -/
theorem renamed_eq_initial (h : Renames path text table plans text) :
    ∀ plan ∈ plans, (plan.renamed table).working = plan.target.initial := by
  intro plan hmem
  by_cases hpath : ofPath path = .script
  · cases hnumber : plan.target.isNumber with
    | true =>
      rw [renamed_number h.naming h.toPlanned hmem hnumber]
      exact (h.atStart plan hmem).working
    | false =>
      have houtlines := programOutlines_eq hpath h (StyleObject.styledPlaces_length text)
      rw [StyleObject.outlines_eq hpath, ← h.targets, filter_map, map_map, map_map] at houtlines
      have hworking := map_inj_left.mp houtlines plan (mem_filter.mpr ⟨hmem, by simp [hnumber]⟩)
      rw [(ofRules_source (h.mem_targets hmem)).2 hnumber]
      exact (Prod.mk.inj hworking).2.symm
  · have houtlines := outlines_eq hpath h
    rw [← h.targets, map_map] at houtlines
    exact (Prod.mk.inj (map_inj_left.mp houtlines plan hmem)).2.symm

/-- A naming leaves a file as it is exactly if it leaves the names as they are that the targets
use. -/
theorem apply_renamed_eq_iff (htable : table.IsNaming)
    (hplans : Planned path text plans) :
    apply (plans.map fun plan => plan.renamed table) text = text ↔
      ∀ target ∈ ofRules text (Source.rules path text), ∀ name,
        target.Uses (ofPath path).ofValue name → table.rename target.name name = name := by
  rw [← hplans.targets, forall_mem_map]
  have hplan : ∀ plan ∈ plans, ((plan.renamed table).working = plan.target.initial ↔
      ∀ name, plan.target.Uses (ofPath path).ofValue name →
        table.rename plan.target.name name = name) := fun plan hmem =>
    Plan.renamed_eq_iff (hplans.atStart plan hmem) htable
  constructor
  · intro hdata plan hmem
    exact (hplan plan hmem).mp (renamed_eq_initial ⟨hplans, htable, hdata.symm⟩ plan hmem)
  · intro h
    have hsame : plans.map (fun plan => plan.renamed table) = plans.map Plan.target := by
      refine map_congr_left fun plan hmem => ?_
      have hworking := ((hplan plan hmem).mpr (h plan hmem)).trans
        (hplans.atStart plan hmem).working.symm
      exact congrArg (fun working : Text => { plan.target with working := working }) hworking
    rw [hsame, hplans.targets, apply_ofRules]

end Resolution

/-! ## Choices that are made -/

namespace Table

variable {table : Table} {property : Text} {pick : Topic → Text}

/-- What an entry puts in, if not its token again, is the token of no entry. -/
def IsFinal (table : Table) (property : Text) : Prop :=
  ∀ entry ∈ table, entry.outcome property ≠ entry.token →
    ∀ other ∈ table, other.token ≠ entry.outcome property

/-- After the choices a renaming puts in no tokens. -/
theorem IsRenaming.isFinal_pin (h : table.IsRenaming)
    (hpick : ∀ topic, pick topic = topic.token ∨ pick topic ∈ topic.candidates)
    (property : Text) : IsFinal (table.pin pick) property := by
  intro entry hmem hne other hother
  obtain ⟨source, hsource, rfl⟩ := mem_map.mp hmem
  obtain ⟨othersource, hothersource, rfl⟩ := mem_map.mp hother
  cases hreplacement : (source.pin pick).pick property with
  | none => simp [Entry.outcome, hreplacement] at hne
  | some replacement =>
    rw [Entry.outcome, hreplacement] at hne ⊢
    have htext : replacement ∈ source.mapping.replacements :=
      (Mapping.mem_replacements_pin hpick (Entry.mem_of_pick hreplacement)).resolve_right hne
    exact (h.independent source hsource replacement htext othersource hothersource).symm

/-- Where no entry puts in a token, a name stays exactly if every entry leaves it as it is. -/
theorem IsFinal.rename_eq_self_iff (h : table.IsFinal property) (name : Text) :
    table.rename property name = name ↔ ∀ entry ∈ table, entry.rename property name = name := by
  induction table with
  | nil => exact iff_of_true rfl (by simp)
  | cons entry table ih =>
    have hlater : IsFinal table property := fun first hfirst hne other hother =>
      h first (mem_cons_of_mem _ hfirst) hne other (mem_cons_of_mem _ hother)
    rw [forall_mem_cons, rename, foldl_cons]
    by_cases hstays : entry.rename property name = name
    · rw [hstays, and_iff_right rfl]
      exact ih hlater
    · -- What the entry puts in is no token, so it stays.
      refine iff_of_false ?_ fun hboth => hstays hboth.1
      have hrename := entry.rename_eq property name
      split at hrename
      next heq =>
        subst heq
        have hafter := @rename_eq_self table property (entry.outcome property)
          fun other hother htoken => absurd htoken
            (h entry mem_cons_self (hrename ▸ hstays) other (mem_cons_of_mem _ hother))
        rw [hrename]
        exact fun hback => hstays (hrename.trans (hafter.symm.trans hback))
      · exact absurd hrename hstays

end Table

namespace Resolution

/-- If a resolution does not fail, it records no change exactly if no entry, the choices made, finds
its token in a declared value and has another text for it; then the data is the text. By a table of
custom properties the data is the text exactly if the entries together leave every name as it is
that the values use. So if also no replacement is a token, it records no change exactly if the data
is the text. -/
theorem resolveFile_changes_eq_nil_iff {σ : Type} (interaction : Interaction σ) (context : Context)
    (table : Table) (text : Text) (before after : Session σ) (resolution : Resolution)
    (hrun : (tryResolve interaction context table (Source.rules context.path text) text).run.run
      before = (.ok resolution, after)) :
    (resolveFile interaction context table text).run.run before = (.ok resolution, after) ∧
    (resolution.changes = [] ↔ ∀ target ∈ Target.ofRules text (Source.rules context.path text),
      target.Untouched (Dialect.ofPath context.path).ofValue (table.pin after.answers.verdict)) ∧
    (resolution.changes = [] → resolution.data = text) ∧
    (table.IsNaming → before.Admitted →
      (resolution.data = text ↔ ∀ target ∈ Target.ofRules text (Source.rules context.path text),
        ∀ name, target.Uses (Dialect.ofPath context.path).ofValue name →
          (table.pin after.answers.verdict).rename target.name name = name)) ∧
    (table.IsRenaming → before.Admitted →
      (resolution.changes = [] ↔ resolution.data = text)) := by
  obtain ⟨hdata, hchanges⟩ := tryResolve_rewrites hrun
  obtain ⟨plans, hplans⟩ := exists_planned ..
  have hverdict : before.Admitted → ∀ topic, after.answers.verdict topic = topic.token ∨
      after.answers.verdict topic ∈ topic.candidates := by
    intro hbefore
    obtain ⟨events, hpath, -⟩ := tryResolve_converses interaction context table _ text _ _ _ hrun
    exact (hpath.admitted hbefore).verdict
  have hnaming : table.IsNaming → before.Admitted →
      (resolution.data = text ↔ ∀ target ∈ ofRules text (Source.rules context.path text),
        ∀ name, target.Uses (ofPath context.path).ofValue name →
          (table.pin after.answers.verdict).rename target.name name = name) := by
    intro htable hbefore
    have hpinned := htable.pin (hverdict hbefore)
    rw [hdata, hplans.map_rewrite hpinned]
    exact apply_renamed_eq_iff hpinned hplans
  refine ⟨resolveFile_of_tryResolve hrun, hchanges, fun hnil => ?_, hnaming,
    fun htable hbefore => ?_⟩
  · rw [hdata, map_rewrite_of_untouched (hchanges.mp hnil), apply_ofRules]
  · rw [hchanges, hnaming htable.isNaming hbefore, ← hplans.targets, forall_mem_map,
      forall_mem_map]
    refine forall₂_congr fun plan hmem => ?_
    rw [Plan.untouched_iff (hplans.atStart plan hmem) (htable.isNaming.pin (hverdict hbefore))]
    refine forall₂_congr fun name _ => ?_
    exact ((htable.isFinal_pin (hverdict hbefore) plan.target.name).rename_eq_self_iff name).symm

/-- Of the program `halfTop` a property is renamed, so there is a change and the data is another. -/
theorem resolveFile_changes_eq_nil_iff_halfTop :
    (tryResolve Interaction.silent ⟨utf8 "s.js", false, none⟩ renameA
        (Source.rules (utf8 "s.js") halfTop) halfTop).run.run Session.silent =
      (.ok halfTopRenamed, Session.silent) ∧
    renameA.IsNaming ∧ renameA.IsRenaming ∧ Session.silent.Admitted ∧
    (halfTopRenamed.changes = [] ↔ halfTopRenamed.data = halfTop) := by
  have hrenaming : renameA.IsRenaming := by decide
  have hadmitted : Session.silent.Admitted := by
    intro topic choice hfind
    cases hfind
  obtain ⟨-, -, -, -, hiff⟩ := resolveFile_changes_eq_nil_iff Interaction.silent
    ⟨utf8 "s.js", false, none⟩ renameA halfTop Session.silent Session.silent halfTopRenamed
    halfTop_resolution
  exact ⟨halfTop_resolution, hrenaming.isNaming, hrenaming, hadmitted, hiff hrenaming hadmitted⟩

/-- The table that takes a name to another and that one back. -/
def swapNames : Table :=
  [⟨utf8 "--a", .plain (utf8 "--b")⟩, ⟨utf8 "--b", .plain (utf8 "--a")⟩]

/-- A rule that uses one name. -/
def namedColor : Text :=
  utf8 ".x\x7bcolor:var(--a)\x7d"

/-- Two changes are recorded though the data is the text. -/
theorem resolveFile_swaps_back :
    (tryResolve Interaction.silent sheetContext swapNames
        (Source.rules sheetContext.path namedColor) namedColor).run.run Session.silent =
      (.ok ⟨namedColor, [⟨utf8 "--a", utf8 "--b", 1⟩, ⟨utf8 "--b", utf8 "--a", 1⟩]⟩,
        Session.silent) ∧
    (resolveFile Interaction.silent sheetContext swapNames namedColor).run.run Session.silent =
      (.ok ⟨namedColor, [⟨utf8 "--a", utf8 "--b", 1⟩, ⟨utf8 "--b", utf8 "--a", 1⟩]⟩,
        Session.silent) := by
  obtain ⟨-, htargets⟩ := @Target.ofRules_of_closed sheetContext.path namedColor .css [⟨2, 17⟩]
    [⟨utf8 "color", ⟨9, 17⟩, utf8 "var(--a)", utf8 "var(--a)", false, false⟩]
    (by decide) (by decide) (by decide) (by decide) (by decide)
  have hrun : (tryResolve Interaction.silent sheetContext swapNames
      (Source.rules sheetContext.path namedColor) namedColor).run.run Session.silent =
      (.ok ⟨namedColor, [⟨utf8 "--a", utf8 "--b", 1⟩, ⟨utf8 "--b", utf8 "--a", 1⟩]⟩,
        Session.silent) := by
    rw [tryResolve, htargets]
    rfl
  exact ⟨hrun, resolveFile_of_tryResolve hrun⟩

end Resolution

end Restyle
