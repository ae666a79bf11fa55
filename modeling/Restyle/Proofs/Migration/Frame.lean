import Restyle.Proofs.Migration.Decided

/-!
# What a resolution leaves alone

A resolution touches declared values only. Whoever answers its questions, it rewrites the working
texts of the targets (`Resolution.resolveTargets_records`). So the result is the old text with the
values of the targets filled in, and if no change was recorded it is the old text:
`Resolution.resolveFile_frame`.
-/

namespace Restyle

open Target

namespace Resolution

variable {σ : Type}

/-- Resolving a file that does not fail touches declared values only and loses no edit: two
properties of the file are parts of one value or have separate values; no edit is left out; the data
is the text with the span of every target holding the target's value, numbers that have not changed
as they were written; and without changes it is the text. -/
theorem resolveFile_frame (interaction : Interaction σ) (context : Context) (table : Table)
    (text : Text) (before after : Session σ) (resolution : Resolution)
    (h : (tryResolve interaction context table (Source.rules context.path text) text).run.run
      before = (.ok resolution, after)) :
    (resolveFile interaction context table text).run.run before = (.ok resolution, after) ∧
    (((Source.rules context.path text).flatMap Rule.properties).Pairwise fun left right =>
      left.Sibling right ∨ left.valueSpan.Apart right.valueSpan ∧
        left.valueSpan.start ≠ right.valueSpan.start) ∧
    (∃ targets,
      (resolveTargets interaction context text table
        (Target.ofRules text (Source.rules context.path text))).run.run before =
          (.ok (targets, resolution.changes), after) ∧
      targets.map Target.frame =
        (Target.ofRules text (Source.rules context.path text)).map Target.frame ∧
      Span.Ordered text.length 0 (targets.map Target.span) ∧
      (∀ earlier edit later, Target.edits targets = earlier ++ edit :: later →
        (later.foldr Edit.applyOne (text, none)).2.any (· < edit.span.stop) = false) ∧
      resolution.data = text.fill 0 (targets.map fun target =>
        (target.span, if target.isNumber && target.working == target.initial then
          target.span.slice text else target.render))) ∧
    (resolution.changes = [] → resolution.data = text) := by
  obtain ⟨targets, htargets, hdata⟩ := tryResolve_targets h
  obtain ⟨heq, recorded, hperm, hchanges⟩ := resolveTargets_records htargets
  have hframes : targets.map frame =
      (ofRules text (Source.rules context.path text)).map frame := by
    rw [heq, List.map_map]
    rfl
  obtain ⟨hordered, hsource⟩ := ordered_of_frames hframes
  refine ⟨resolveFile_of_tryResolve h, Source.properties_separate ..,
    ⟨targets, htargets, hframes, hordered, ?_, ?_⟩, fun hnil => ?_⟩
  · intro earlier edit later hsplit
    have hedits := edits_ordered hordered
    rw [hsplit] at hedits
    exact Edit.applyOne_floor hedits
  · rw [hdata, apply_eq_fill hordered hsource]
    rfl
  · -- Without changes the targets are those of the file, which have no edits.
    have huntouched := (recordAll_eq_nil_iff_untouched hperm).mp (hchanges ▸ hnil)
    rw [hdata, heq, List.map_congr_left fun target hmem =>
      rewrite_of_untouched (huntouched target hmem), List.map_id', apply_ofRules]

/-! ## A number that is not written as it is displayed -/

/-- A style object with a number that is displayed as `0.5`. -/
def halfTop : Text :=
  utf8 "s=\x7btop:.5,color:'var(--a)'\x7d"

/-- The table that renames the property of `halfTop`. -/
def renameA : Table :=
  [⟨utf8 "--a", .plain (utf8 "--b")⟩]

theorem halfTop_targets : ofRules halfTop (Source.rules (utf8 "s.js") halfTop) =
    [⟨utf8 "top", ⟨7, 9⟩, utf8 "0.5", utf8 "0.5", true, false⟩,
      ⟨utf8 "color", ⟨17, 25⟩, utf8 "var(--a)", utf8 "var(--a)", false, false⟩] :=
  (@Target.ofRules_of_closed (utf8 "s.js") halfTop .script [⟨2, 26⟩] _
    (by decide) (by decide) (by decide) (by decide) (by decide)).2

/-- What resolving `halfTop` gives: its property renamed and its number as it was. -/
def halfTopRenamed : Resolution :=
  ⟨utf8 "s=\x7btop:.5,color:'var(--b)'\x7d", [⟨utf8 "--a", utf8 "--b", 1⟩]⟩

theorem halfTop_resolution :
    (tryResolve Interaction.silent ⟨utf8 "s.js", false, none⟩ renameA
        (Source.rules (utf8 "s.js") halfTop) halfTop).run.run Session.silent =
      (.ok halfTopRenamed, Session.silent) := by
  rw [tryResolve, halfTop_targets]
  rfl

/-- The data of `halfTop` is filled with its number as it was written. -/
theorem resolveFile_frame_halfTop :
    (tryResolve Interaction.silent ⟨utf8 "s.js", false, none⟩ renameA
        (Source.rules (utf8 "s.js") halfTop) halfTop).run.run Session.silent =
      (.ok halfTopRenamed, Session.silent) ∧
    ∃ targets : List Target, halfTopRenamed.data = halfTop.fill 0 (targets.map fun target =>
      (target.span, if target.isNumber && target.working == target.initial then
        target.span.slice halfTop else target.render)) := by
  obtain ⟨-, -, ⟨targets, -, -, -, -, hdata⟩, -⟩ :=
    resolveFile_frame _ _ _ _ _ _ _ halfTop_resolution
  exact ⟨halfTop_resolution, targets, hdata⟩

/-- The data of `halfTop` is not the text with the span of every target holding its rendered working
text: the number is not rewritten to how it is displayed. -/
theorem resolveFile_keeps_number :
    ∃ targets,
      (resolveTargets Interaction.silent ⟨utf8 "s.js", false, none⟩ halfTop renameA
        (Target.ofRules halfTop (Source.rules (utf8 "s.js") halfTop))).run.run Session.silent =
          (.ok (targets, halfTopRenamed.changes), Session.silent) ∧
      (resolveFile Interaction.silent ⟨utf8 "s.js", false, none⟩ renameA halfTop).run.run
        Session.silent = (.ok halfTopRenamed, Session.silent) ∧
      halfTopRenamed.data ≠
        halfTop.fill 0 (targets.map fun target => (target.span, target.render)) := by
  refine ⟨[⟨utf8 "top", ⟨7, 9⟩, utf8 "0.5", utf8 "0.5", true, false⟩,
    ⟨utf8 "color", ⟨17, 25⟩, utf8 "var(--a)", utf8 "var(--b)", false, false⟩], ?_,
    resolveFile_of_tryResolve halfTop_resolution, by decide⟩
  rw [halfTop_targets]
  rfl

end Resolution

end Restyle
