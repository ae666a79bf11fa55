import Restyle.Migration.Run
import Restyle.Proofs.Migration.Conversation

/-!
# The steps of a migration

`Migration.Chain` says what doing steps means: each goes on with the text that the one before it
left. The steps of a file are such a chain through those that are due (`Migration.applySteps_ok`),
or one that ends before a step that halts (`Migration.applySteps_halt`).
-/

namespace Restyle

open Dialogue List LiteralPair Resolution

theorem Session.hear_hear {σ : Type} (interaction : Interaction σ) (session : Session σ)
    (lines more : List (Level × String)) :
    (session.hear interaction lines).hear interaction more =
      session.hear interaction (lines ++ more) := by
  rw [hear, hear, hear, foldl_append]

namespace Plugin

variable {σ : Type} {interaction : Interaction σ} {context : Context} {plugin : Plugin}
  {config : Json} {text : Text} {before after : Session σ}

/-- What a plugin does: it replaces literal pairs or fails for them, or it resolves the file by a
table or logs that there is none. -/
theorem apply_cases (interaction : Interaction σ) (context : Context) (plugin : Plugin)
    (config : Json) (text : Text) :
    (plugin = .simpleReplace ∧ ∃ pairs, read config = .ok pairs ∧
      plugin.apply interaction context config text = pure (replaceAll pairs text)) ∨
    (plugin = .simpleReplace ∧ ∃ error, read config = .error error ∧
      plugin.apply interaction context config text = throw (.error error)) ∨
    (plugin ≠ .simpleReplace ∧ ∃ table, Table.read config = .ok table ∧
      plugin.apply interaction context config text =
        resolveFile interaction context table text) ∨
    ∃ error, plugin.apply interaction context config text =
      log interaction .error (errorLine error) >>= fun _ =>
        pure (unchanged text) := by
  cases plugin with
  | simpleReplace =>
    unfold apply
    cases read config with
    | ok pairs => exact .inl ⟨rfl, pairs, rfl, rfl⟩
    | error error => exact .inr (.inl ⟨rfl, error, rfl, rfl⟩)
  | cssValues | styleValues =>
    unfold apply
    cases Table.read config with
    | ok table => exact .inr (.inr (.inl ⟨by decide, table, rfl, rfl⟩))
    | error error => exact .inr (.inr (.inr ⟨error, rfl⟩))

/-- Why a plugin halts: for literal pairs that cannot be read, or because resolving the file by the
table cuts a character. -/
def Halts (interaction : Interaction σ) (context : Context) (plugin : Plugin) (config : Json)
    (text : Text) (before after : Session σ) : Halt → Prop
  | .error error =>
    plugin = .simpleReplace ∧ read config = .error error ∧ after = before
  | .panic => plugin ≠ .simpleReplace ∧ ∃ table, Table.read config = .ok table ∧
    (resolveFile interaction context table text).run.run before = (.error .panic, after)

theorem apply_halts {halt : Halt}
    (h : (plugin.apply interaction context config text).run.run before = (.error halt, after)) :
    plugin.Halts interaction context config text before after halt := by
  obtain ⟨-, pairs, -, happly⟩ | ⟨hplugin, problem, hread, happly⟩ |
    ⟨hplugin, table, hread, happly⟩ | ⟨problem, happly⟩ := apply_cases ..
  all_goals rw [happly] at h
  · cases h
  · cases h
    exact ⟨hplugin, hread, rfl⟩
  · obtain ⟨-, hok⟩ | ⟨-, -, -, houtcome, -⟩ := resolveFile_cases h
    · cases halt with
      | error error => cases hok
      | panic => exact ⟨hplugin, table, hread, h⟩
    · cases houtcome
  · cases h

end Plugin

namespace Migration

open Dialogue (Yields)

variable {σ : Type} {interaction : Interaction σ} {context : Context} {path : String} {text : Text}
  {before after : Session σ}

/-- Whether a step is done on the file at a path: it is enabled and for that file. -/
def isDue (path : String) (step : MigrationStep) : Bool :=
  step.isEnabled && step.appliesTo (matchedPath path)

/-- A step cannot be done: its plugin is not known, or its literal pairs cannot be read. -/
def Fails (step : MigrationStep) (error : Error) : Prop :=
  Plugin.ofName step.plugin = .error error ∨
    Plugin.ofName step.plugin = .ok .simpleReplace ∧ read step.config = .error error

/-- Steps are done one after the other, each by its plugin on the text that the one before it left,
and lines are logged in between. -/
inductive Chain (interaction : Interaction σ) (context : Context) :
    List MigrationStep → Text → Session σ → List Resolution → Session σ → Prop where
  | nil (text session lines) :
      Chain interaction context [] text session [] (session.hear interaction lines)
  | cons {step steps text session lines plugin resolution middle resolutions after} :
      Plugin.ofName step.plugin = .ok plugin →
      Yields (plugin.apply interaction context step.config text) (session.hear interaction lines)
        resolution middle →
      Chain interaction context steps resolution.data middle resolutions after →
      Chain interaction context (step :: steps) text session (resolution :: resolutions) after

/-- The text that is left after resolutions of a text. -/
def finalText (text : Text) (resolutions : List Resolution) : Text :=
  resolutions.foldl (fun _ resolution => resolution.data) text

/-- Why a step halts: it cannot be done, or it cuts a character. -/
def Halts (interaction : Interaction σ) (context : Context) (step : MigrationStep) (text : Text)
    (before after : Session σ) (halt : Halt) : Prop :=
  (∃ error, Plugin.ofName step.plugin = .error error ∧ halt = .error error ∧ after = before) ∨
    ∃ plugin, Plugin.ofName step.plugin = .ok plugin ∧
      plugin.Halts interaction context step.config text before after halt

/-- A step that fails cannot be done. -/
theorem Halts.fails {step : MigrationStep} {error : Error}
    (h : Halts interaction context step text before after (.error error)) :
    Fails step error := by
  obtain ⟨other, hname, heq, -⟩ | ⟨plugin, hname, rfl, hread, -⟩ := h
  · cases heq
    exact .inl hname
  · exact .inr ⟨hname, hread⟩

variable {steps : List MigrationStep} {outcome : Except Halt Resolution} {done : Resolution}

/-- Lines may be logged before the steps. -/
theorem Chain.after_lines {lines : List (Level × String)} {resolutions : List Resolution}
    (h : Chain interaction context steps text (before.hear interaction lines) resolutions after) :
    Chain interaction context steps text before resolutions after := by
  cases h with
  | nil text session more =>
    rw [Session.hear_hear]
    exact .nil text before _
  | cons hplugin happly hrest =>
    rw [Session.hear_hear] at happly
    exact .cons hplugin happly hrest

theorem logChanges_run (interaction : Interaction σ) (path : String) (changes : List Change)
    (session : Session σ) :
    (logChanges interaction path changes).run.run session =
      (.ok (), session.hear interaction
        (changes.map fun change => (.debug, change.describe path))) := by
  induction changes generalizing session with
  | nil => rfl
  | cons change changes ih =>
    exact ih _

/-- What one step can do: nothing if it is not due, or what its plugin does, or it halts. -/
theorem applyStep_cases {step : MigrationStep}
    (h : (applyStep interaction context path done step).run.run before = (outcome, after)) :
    (isDue path step = false ∧ outcome = .ok done ∧
      ∃ lines, after = before.hear interaction lines) ∨
    (isDue path step ∧ ∃ plugin resolution middle lines,
      Plugin.ofName step.plugin = .ok plugin ∧
      Yields (plugin.apply interaction context step.config done.data) before resolution middle ∧
      outcome = .ok ⟨resolution.data, done.changes ++ resolution.changes⟩ ∧
      after = middle.hear interaction lines) ∨
    (isDue path step ∧ ∃ halt, Halts interaction context step done.data before after halt ∧
      outcome = .error halt) := by
  unfold applyStep at h
  split at h
  next hdisabled =>
    cases h
    exact .inl ⟨by simp_all [isDue], rfl, [(_, _)], rfl⟩
  next henabled =>
    split at h
    next hother =>
      cases h
      exact .inl ⟨by simp_all [isDue], rfl, [], rfl⟩
    next happlies =>
      have hdue : isDue path step := by simp_all [isDue]
      split at h
      next error hname =>
        cases h
        exact .inr (.inr ⟨hdue, _, .inl ⟨error, hname, rfl, rfl⟩, rfl⟩)
      next plugin hname =>
        rw [run_bind] at h
        rcases happly : (plugin.apply interaction context step.config done.data).run.run before with
          ⟨first, middle⟩
        rw [happly] at h
        cases first with
        | error halt =>
          cases h
          exact .inr (.inr ⟨hdue, halt, .inr ⟨plugin, hname, Plugin.apply_halts happly⟩, rfl⟩)
        | ok resolution =>
          simp only [run_bind, logChanges_run] at h
          cases h
          exact .inr (.inl ⟨hdue, plugin, resolution, middle, _, hname, happly, rfl, rfl⟩)

/-- Steps go on from what is done already: they are a chain through the steps that are due, or one
that ends before a step that halts. -/
theorem foldlM_applyStep_cases {steps : List MigrationStep} {done : Resolution}
    (h : (steps.foldlM (applyStep interaction context path) done).run.run before =
      (outcome, after)) :
    (∃ resolutions, Chain interaction context (steps.filter (isDue path)) done.data before
        resolutions after ∧
      outcome = .ok ⟨finalText done.data resolutions,
        done.changes ++ resolutions.flatMap changes⟩) ∨
    ∃ earlier step later resolutions middle halt,
      steps.filter (isDue path) = earlier ++ step :: later ∧
      Chain interaction context earlier done.data before resolutions middle ∧
      Halts interaction context step (finalText done.data resolutions) middle after halt ∧
      outcome = .error halt := by
  induction steps generalizing done before with
  | nil =>
    cases h
    exact .inl ⟨[], .nil _ _ [], by simp [finalText]⟩
  | cons step steps ih =>
    rw [foldlM_cons, run_bind] at h
    rcases hstep : (applyStep interaction context path done step).run.run before with
      ⟨first, middle⟩
    rw [hstep] at h
    obtain ⟨hdue, rfl, lines, rfl⟩ | ⟨hdue, plugin, resolution, reached, lines, hname, happly, rfl,
      rfl⟩ | ⟨hdue, halt, hhalts, rfl⟩ := applyStep_cases hstep
    · -- The step is not due: its lines are heard before the rest.
      rw [filter_cons_of_neg (by simp [hdue])]
      obtain ⟨resolutions, hchain, rfl⟩ | ⟨earlier, bad, later, resolutions, last, halt, hsplit,
        hchain, hrest⟩ := ih h
      · exact .inl ⟨resolutions, hchain.after_lines, rfl⟩
      · exact .inr ⟨earlier, bad, later, resolutions, last, halt, hsplit, hchain.after_lines, hrest⟩
    · -- The step is done: the rest goes on with its text and adds to its changes.
      rw [filter_cons_of_pos hdue]
      have hfirst : Yields (plugin.apply interaction context step.config done.data)
          (before.hear interaction []) resolution reached := happly
      obtain ⟨resolutions, hchain, rfl⟩ | ⟨earlier, bad, later, resolutions, last, halt, hsplit,
        hchain, hrest⟩ := ih h
      · refine .inl ⟨resolution :: resolutions, .cons hname hfirst hchain.after_lines, ?_⟩
        simp [finalText]
      · refine .inr ⟨step :: earlier, bad, later, resolution :: resolutions, last, halt, ?_,
          .cons hname hfirst hchain.after_lines, hrest⟩
        rw [hsplit, cons_append]
    · cases h
      rw [filter_cons_of_pos hdue]
      exact .inr ⟨[], step, _, [], _, halt, rfl, .nil _ _ [], hhalts, rfl⟩

/-- Steps that are all done: the changes of those that are due, and the text that the last of them
left. -/
theorem applySteps_ok {steps : List MigrationStep} {resolution : Resolution}
    (h : (applySteps interaction context path steps text).run.run before =
      (.ok resolution, after)) :
    ∃ resolutions, Chain interaction context (steps.filter (isDue path)) text before resolutions
        after ∧
      resolution = ⟨finalText text resolutions, resolutions.flatMap changes⟩ := by
  obtain ⟨resolutions, hchain, houtcome⟩ | ⟨-, -, -, -, -, halt, -, -, -, houtcome⟩ :=
    foldlM_applyStep_cases h
  · cases houtcome
    exact ⟨resolutions, hchain, by simp [unchanged]⟩
  · cases houtcome

/-- Steps that are not all done: some step that is due halts, after those before it are done. -/
theorem applySteps_halt {halt : Halt}
    (h : (applySteps interaction context path steps text).run.run before = (.error halt, after)) :
    ∃ earlier step later resolutions middle,
      steps.filter (isDue path) = earlier ++ step :: later ∧
      Chain interaction context earlier text before resolutions middle ∧
      Halts interaction context step (finalText text resolutions) middle after halt := by
  obtain ⟨resolutions, hchain, houtcome⟩ | ⟨earlier, step, later, resolutions, middle, other,
    hsplit, hchain, hhalts, houtcome⟩ := foldlM_applyStep_cases h
  · cases houtcome
  · cases houtcome
    exact ⟨earlier, step, later, resolutions, middle, hsplit, hchain, hhalts⟩

end Migration

end Restyle
