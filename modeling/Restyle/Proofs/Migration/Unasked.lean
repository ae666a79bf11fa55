import Restyle.Proofs.Migration.InPlace

/-!
# Runs in which nothing is asked

Where no question may be asked and nothing is settled, all that a resolution does to its session is
to log, and all choices give way to their tokens: `Resolution.resolveFile_unasked`. What becomes of
a file in a run then depends on the file alone: not on who listens, on the files before it or on how
far the run is (`Run.exists_judge`).
-/

namespace Restyle

open Session

/-! ## Choices that give way -/

namespace Resolution

variable {σ τ : Type}

/-- Where no question may be asked and nothing is settled, everyone resolves the file as by the
table in which every choice has given way to the token itself. -/
theorem resolveFile_quiet (interaction : Interaction σ) {context : Context} (table : Table)
    (text : Text) {before : Session σ} (hquiet : context.interactive = false)
    (hopen : before.answers = {}) :
    ∃ outcome lines, (resolveFile interaction context table text).run.run before =
        (outcome, before.hear interaction lines) ∧
      ((∃ resolution, outcome = .ok resolution) ∨
        outcome = .error .panic ∧ ∃ entry ∈ table, ¬ entry.token.IsFlush) ∧
      ∀ {τ : Type} (other : Interaction τ) (context' : Context), context'.path = context.path →
        resolveFile other context' (table.pin Topic.token) text = Dialogue.ofOutcome outcome := by
  obtain ⟨outcome, lines, hrun, hok⟩ :=
    @tryResolve_quiet σ interaction context text hquiet table (Source.rules context.path text)
      before
  refine ⟨outcome, lines, resolveFile_of_outcome hrun hok, ?_, fun other context' hpath => ?_⟩
  · rcases outcome with (error | _) | resolution
    · cases hok
    · exact .inr ⟨rfl, exists_of_panic hrun⟩
    · exact .inl ⟨resolution, rfl⟩
  · have hpinned := resolveFile_pinned other context' hrun hok hpath
    have hanswers : (before.hear interaction lines).answers = {} := hopen
    rw [hanswers] at hpinned
    exact hpinned

/-- Where no question may be asked and nothing is settled, a resolution is that by the table in
which every choice has given way to the token itself. It succeeds, unless a character is cut for a
token with a space at an end, and nothing is asked or settled: all that is done to the session is to
log. A clause with a choice that covers a property replaces nothing there,
whatever clauses come behind it. -/
theorem resolveFile_unasked (interaction : Interaction σ) (path : Text)
    (progress : Option Progress) (table : Table) (text : Text) (state : σ) :
    ∃ (outcome : Except Halt Resolution) (lines : List (Level × String)),
      (resolveFile interaction ⟨path, false, progress⟩ table text).run.run ⟨{}, state⟩ =
        (outcome, ⟨{}, lines.foldl
          (fun state line => interaction.log line.1 line.2 state) state⟩) ∧
      ((∃ resolution : Resolution, outcome = .ok resolution) ∨
        outcome = .error .panic ∧ ∃ entry ∈ table, ¬ entry.token.IsFlush) ∧
      (∀ (other : Interaction τ) (mayAsk : Bool) (progress' : Option Progress)
        (session : Session τ),
        (resolveFile other ⟨path, mayAsk, progress'⟩ (table.pin Topic.token) text).run.run session =
          (outcome, session)) ∧
      ∀ (token : Text) (earlier later : List Clause) (clause : Clause) (candidates : List Text)
        (property : Text) (offset : Nat),
        (∀ other ∈ earlier, other.covers property = false) → clause.covers property = true →
        clause.replacement = .choice candidates →
        ∃ line : Level × String,
          (replacementFor interaction ⟨path, false, progress⟩ text
            ⟨token, .conditional (earlier ++ clause :: later)⟩ property offset).run.run
              ⟨{}, state⟩ =
          (.ok none, ⟨{}, interaction.log line.1 line.2 state⟩) := by
  obtain ⟨outcome, lines, hrun, hreturns, hpinned⟩ := @resolveFile_quiet σ interaction
    ⟨path, false, progress⟩ table text ⟨{}, state⟩ rfl rfl
  refine ⟨outcome, lines, hrun, hreturns, ?_, ?_⟩
  · intro other mayAsk progress' session
    rw [hpinned other ⟨path, mayAsk, progress'⟩ rfl]
    rfl
  · intro token earlier later clause candidates property offset hearlier hcovers hchoice
    have hnone : earlier.find? (fun other => other.covers property) = none :=
      List.find?_eq_none.mpr fun other hmem => by simp [hearlier other hmem]
    have hclause : Mapping.replacementIn? (.conditional (earlier ++ clause :: later)) property =
        some (.choice candidates) := by
      rw [Mapping.replacementIn?, List.find?_append, hnone, Option.none_or, List.find?_cons,
        hcovers, Option.map_some, hchoice]
    rw [replacementFor, hclause]
    exact ⟨(_, _), rfl⟩

/-- A token with a choice for every property but the margin, and a clause behind the choice that is
never reached. -/
def shadowedEntry : Entry :=
  ⟨utf8 "--a", .conditional ([⟨[utf8 "margin"], .one (utf8 "--m")⟩] ++
    ⟨[], .choice [utf8 "--b", utf8 "--c"]⟩ :: [⟨[], .one (utf8 "--d")⟩])⟩

/-- For a color the choice decides, and stands for the token itself. -/
theorem resolveFile_unasked_shadowedEntry :
    (∀ clause ∈ [Clause.mk [utf8 "margin"] (.one (utf8 "--m"))],
      clause.covers (utf8 "color") = false) ∧
    (Clause.mk [] (.choice [utf8 "--b", utf8 "--c"])).covers (utf8 "color") = true ∧
    (∃ line : Level × String,
      (replacementFor (Script.interaction true) ⟨utf8 "s.css", false, none⟩
        (utf8 "p \x7b color: var(--a) \x7d") shadowedEntry (utf8 "color") 11).run.run ⟨{}, {}⟩ =
      (.ok none, ⟨{}, Script.log line.1 line.2 {}⟩)) ∧
    ∃ (resolution : Resolution) (lines : List (Level × String)),
      (resolveFile (Script.interaction true) ⟨utf8 "s.css", false, none⟩ [shadowedEntry]
        (utf8 "p \x7b color: var(--a) \x7d")).run.run ⟨{}, {}⟩ =
        (.ok resolution, ⟨{}, lines.foldl (fun state line => Script.log line.1 line.2 state) {}⟩) ∧
      (resolveFile Interaction.silent ⟨utf8 "s.css", false, none⟩
        (Table.pin Topic.token [shadowedEntry])
        (utf8 "p \x7b color: var(--a) \x7d")).run.run Session.silent =
        (.ok resolution, Session.silent) := by
  have hearlier : ∀ clause ∈ [Clause.mk [utf8 "margin"] (.one (utf8 "--m"))],
      clause.covers (utf8 "color") = false := by decide
  obtain ⟨outcome, lines, hrun, hreturns, hpinned, hshadow⟩ :=
    resolveFile_unasked (Script.interaction true) (utf8 "s.css") none [shadowedEntry]
      (utf8 "p \x7b color: var(--a) \x7d") {}
  obtain ⟨resolution, rfl⟩ := hreturns.resolve_right fun hpanic => absurd hpanic.2 (by decide)
  refine ⟨hearlier, rfl, ?_, resolution, lines, hrun, hpinned Interaction.silent false none _⟩
  exact hshadow _ _ _ _ _ (utf8 "color") 11 hearlier rfl rfl

end Resolution

/-! ## Runs -/

namespace Dialogue

variable {σ α β : Type} {interaction : Interaction σ}

/-- In every session in which nothing is settled the dialogue has the outcome, and all it does to
the session is to log. -/
def Tells (interaction : Interaction σ) (dialogue : Dialogue σ α) (outcome : Except Halt α)
    : Prop :=
  ∀ before : Session σ, before.answers = {} → ∃ lines,
    dialogue.run.run before = (outcome, before.hear interaction lines)

namespace Tells

theorem pure (value : α) : Tells interaction (Pure.pure value) (.ok value) :=
  fun _ _ => ⟨[], rfl⟩

theorem throw (halt : Halt) : Tells interaction (throw halt : Dialogue σ α) (.error halt) :=
  fun _ _ => ⟨[], rfl⟩

theorem log (level : Level) (message : String) :
    Tells interaction (Dialogue.log interaction level message) (.ok ()) :=
  fun _ _ => ⟨[(level, message)], rfl⟩

variable {dialogue : Dialogue σ α}

theorem bind {next : α → Dialogue σ β} {value : α} {outcome : Except Halt β}
    (hfirst : Tells interaction dialogue (.ok value))
    (hnext : Tells interaction (next value) outcome) :
    Tells interaction (dialogue >>= next) outcome := by
  intro before hopen
  obtain ⟨lines, hlines⟩ := hfirst before hopen
  obtain ⟨more, hmore⟩ := hnext (before.hear interaction lines) hopen
  refine ⟨lines ++ more, ?_⟩
  rw [run_bind, hlines]
  simp only [hmore, hear_hear]

theorem bind_error {halt : Halt} (h : Tells interaction dialogue (.error halt))
    (next : α → Dialogue σ β) : Tells interaction (dialogue >>= next) (.error halt) := by
  intro before hopen
  obtain ⟨lines, hlines⟩ := h before hopen
  refine ⟨lines, ?_⟩
  rw [run_bind, hlines]

end Tells

end Dialogue

open Dialogue (Tells)

variable {σ : Type}

variable (interaction : Interaction σ)

/-- A file is resolved to the same by everyone who may not ask. -/
theorem Resolution.exists_tells (path : Text) (table : Table) (text : Text) :
    ∃ outcome, ∀ progress,
      Tells interaction (resolveFile interaction ⟨path, false, progress⟩ table text) outcome := by
  obtain ⟨outcome, -, -, -, houtcome⟩ := @resolveFile_quiet Unit Interaction.silent
    ⟨path, false, none⟩ table text silent rfl rfl
  refine ⟨outcome, fun progress before hopen => ?_⟩
  obtain ⟨other, lines, hrun, -, hother⟩ :=
    @resolveFile_quiet σ interaction ⟨path, false, progress⟩ table text before rfl hopen
  -- Both are what the table makes of the file in which all choices have given way.
  have hsame := congrArg (fun dialogue : Dialogue Unit Resolution => (dialogue.run.run silent).1)
    ((hother Interaction.silent ⟨path, false, none⟩ rfl).symm.trans
      (houtcome Interaction.silent ⟨path, false, none⟩ rfl))
  obtain rfl : other = outcome := hsame
  exact ⟨lines, hrun⟩

/-- A plugin makes the same of a text for everyone who may not ask. -/
theorem Plugin.exists_tells (path : Text) (plugin : Plugin) (config : Json) (text : Text) :
    ∃ outcome, ∀ progress,
      Tells interaction (plugin.apply interaction ⟨path, false, progress⟩ config text) outcome := by
  cases plugin with
  | simpleReplace =>
    unfold apply
    cases LiteralPair.read config with
    | ok pairs => exact ⟨_, fun _ => Tells.pure _⟩
    | error error => exact ⟨_, fun _ => Tells.throw _⟩
  | cssValues | styleValues =>
    unfold apply
    cases Table.read config with
    | ok table =>
      exact Resolution.exists_tells interaction path table text
    | error error => exact ⟨_, fun _ => (Tells.log _ _).bind (Tells.pure _)⟩

namespace Migration

variable (interaction : Interaction σ)

theorem logChanges_tells (path : String) (changes : List Change) :
    Tells interaction (logChanges interaction path changes) (.ok ()) :=
  fun _ _ => ⟨_, logChanges_run ..⟩

/-- A step does the same to a file for everyone who may not ask. -/
theorem applyStep_tells (path : String) (done : Resolution) (step : MigrationStep) :
    ∃ outcome, ∀ progress,
      Tells interaction (applyStep interaction ⟨utf8 path, false, progress⟩ path done step)
        outcome := by
  unfold applyStep
  split
  · exact ⟨_, fun _ => (Tells.log _ _).bind (Tells.pure _)⟩
  · split
    · exact ⟨_, fun _ => Tells.pure _⟩
    · cases Plugin.ofName step.plugin with
      | error error => exact ⟨_, fun _ => Tells.throw _⟩
      | ok plugin =>
        obtain ⟨outcome, houtcome⟩ :=
          plugin.exists_tells interaction (utf8 path) step.config done.data
        cases outcome with
        | error error => exact ⟨_, fun progress => (houtcome progress).bind_error _⟩
        | ok resolution =>
          exact ⟨_, fun progress => (houtcome progress).bind
            ((logChanges_tells interaction path _).bind (Tells.pure _))⟩

/-- Steps do the same to a file for everyone who may not ask. -/
theorem applySteps_tells (path : String) (steps : List MigrationStep) (text : Text) :
    ∃ outcome, ∀ progress,
      Tells interaction (applySteps interaction ⟨utf8 path, false, progress⟩ path steps text)
        outcome := by
  unfold applySteps
  generalize Resolution.unchanged text = done
  induction steps generalizing done with
  | nil => exact ⟨_, fun _ => Tells.pure done⟩
  | cons step steps ih =>
    obtain ⟨outcome, houtcome⟩ := applyStep_tells ..
    cases outcome with
    | error error => exact ⟨_, fun progress => (houtcome progress).bind_error _⟩
    | ok next =>
      obtain ⟨final, hfinal⟩ := ih next
      exact ⟨final, fun progress => (houtcome progress).bind (hfinal progress)⟩

end Migration

namespace Run

/-- What becomes of a file if nothing may be asked and nothing is settled does not depend on the
session or on how far the run is. -/
theorem exists_processed {interaction : Interaction σ} {options : RunOptions}
    (hquiet : (options.interactive && interaction.isInteractive) = false)
    (steps : List MigrationStep) (path : String) (loaded : Except Error Text) :
    ∃ done, ∀ progress (session : Session σ), session.answers = {} → ∃ lines,
      process interaction options steps progress path loaded session =
        (done, session.hear interaction lines) := by
  cases loaded with
  | error error => exact ⟨_, fun _ session _ => ⟨_, rfl⟩⟩
  | ok text =>
    obtain ⟨outcome, houtcome⟩ := Migration.applySteps_tells interaction path steps text
    have hcontext : ∀ progress, context interaction options progress path =
        ⟨utf8 path, false, progress⟩ := by
      intro progress
      rw [context, hquiet]
    obtain ⟨done, more, -, hdone⟩ := exists_concluded interaction options path outcome
    refine ⟨done, fun progress session hopen => ?_⟩
    obtain ⟨lines, hlines⟩ := houtcome progress session hopen
    refine ⟨lines ++ more, ?_⟩
    simp only [process, hcontext, hlines, hdone, hear_hear]

/-- What becomes of the files at the paths by a judgement, up to one that the run ends in. -/
def upTo (judge : String → Processed) : List String → List Processed
  | [] => []
  | path :: rest =>
    if (judge path).result.isPanic then [judge path] else judge path :: upTo judge rest

/-- Unless a run ends early it gets to all files. -/
theorem upTo_eq_map {judge : String → Processed} {paths : List String}
    (h : ∀ path ∈ paths, (judge path).result.isPanic = false) :
    upTo judge paths = paths.map judge := by
  induction paths with
  | nil => rfl
  | cons path rest ih =>
    obtain ⟨hpath, hrest⟩ := List.forall_mem_cons.mp h
    rw [upTo, hpath, if_neg Bool.false_ne_true, ih hrest, List.map_cons]

theorem isPanic_of_upTo {judge : String → Processed} {paths : List String}
    (h : ∀ done ∈ upTo judge paths, done.result.isPanic = false) :
    ∀ path ∈ paths, (judge path).result.isPanic = false := by
  induction paths with
  | nil => simp
  | cons path rest ih =>
    rw [upTo] at h
    split at h
    next hpanic =>
      rw [h _ (List.mem_singleton_self _)] at hpanic
      cases hpanic
    · obtain ⟨hpath, hrest⟩ := List.forall_mem_cons.mp h
      exact List.forall_mem_cons.mpr ⟨hpath, ih hrest⟩

/-- What becomes of each file if nothing may be asked and nothing is settled. -/
theorem exists_judge (interaction : Interaction σ) (options : RunOptions)
    (hquiet : (options.interactive && interaction.isInteractive) = false)
    (steps : List MigrationStep) (tree : FileTree) :
    ∃ judge : String → Processed, ∀ index total paths (session : Session σ),
      session.answers = {} → ∃ lines,
        processFrom interaction options steps tree index total paths session =
          (upTo judge paths, session.hear interaction lines) := by
  obtain ⟨judge, hjudge⟩ := Classical.axiomOfChoice fun path =>
    exists_processed hquiet steps path (tree.load path "read source file")
  refine ⟨judge, fun index total paths => ?_⟩
  induction paths generalizing index with
  | nil => exact fun session _ => ⟨[], rfl⟩
  | cons path rest ih =>
    intro session hopen
    obtain ⟨lines, hlines⟩ := hjudge path (some (progressAt index total path)) session hopen
    simp only [processFrom, hlines, upTo]
    split
    · exact ⟨lines, rfl⟩
    · obtain ⟨more, hmore⟩ := ih (index + 1) (session.hear interaction lines) hopen
      exact ⟨lines ++ more, by simp only [hmore, hear_hear]⟩

end Run

end Restyle
