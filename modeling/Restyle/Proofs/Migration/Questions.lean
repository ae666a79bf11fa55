import Restyle.Proofs.Migration.Files
import Restyle.Proofs.Migration.Frame

/-!
# The questions of runs

A session lasts through any number of calls, each on files as it finds them. All that the calls do
to it is a path (`Session.afterCalls_path`), so whatever is settled stays settled and is not asked
about again: `Session.afterCalls_settle_questions`.
-/

namespace Restyle

open Resolution Script

open Dialogue (Converses)

/-! ## What is asked -/

/-- The state of who answers has a record of all questions that were asked. -/
structure Interaction.Records {σ : Type} (interaction : Interaction σ)
    (asked : σ → List Question) : Prop where
  ask : ∀ question state, asked (interaction.ask question state).2 = asked state ++ [question]
  log : ∀ level message state, asked (interaction.log level message state) = asked state

theorem Script.interaction_records (isInteractive : Bool) :
    (interaction isInteractive).Records questions := by
  refine ⟨fun question script => ?_, fun level message script => rfl⟩
  show (ask question script).2.questions = _
  unfold ask
  cases script.replies <;> rfl

namespace Session

variable {σ : Type} {interaction : Interaction σ} {before middle after : Session σ} {event : Event}
  {events more : List Event}

variable {asked : σ → List Question}

theorem Step.recorded (hrecords : interaction.Records asked)
    (h : Step interaction before event after) :
    asked after.state = asked before.state ++ event.question?.toList := by
  cases h with
  | said level message => exact (hrecords.log ..).trans (List.append_nil _).symm
  | settled topic question choice state hopen habout hask hadmits
  | failed topic question outcome state hopen habout hask hrefused =>
    have hasked := hrecords.ask question before.state
    rw [hask] at hasked
    exact hasked

theorem Path.recorded (hrecords : interaction.Records asked)
    (h : Path interaction before events after) :
    asked after.state = asked before.state ++ events.filterMap Event.question? := by
  induction h with
  | nil session => simp
  | cons hstep _ ih =>
    rw [ih, hstep.recorded hrecords, List.append_assoc, List.filterMap_cons]
    cases Event.question? _ <;> rfl

/-- What is settled at a session is settled by choices that were offered, is settled alike later,
and is not asked about in between. -/
structure Keeps (session : Session σ) (more : List Event) (later : Session σ) : Prop where
  admitted : ∀ topic choice, session.answers.find? topic = some choice → topic.Admits choice
  kept : ∀ topic choice, session.answers.find? topic = some choice →
    later.answers.find? topic = some choice
  unasked : ∀ topic choice, session.answers.find? topic = some choice →
    ∀ event ∈ more, event.topic? ≠ some topic

/-- Where nothing was settled at first, all that is settled is settled for good. -/
theorem Path.keeps {state : σ} (hfirst : Path interaction ⟨{}, state⟩ events middle)
    (hsecond : Path interaction middle more after) : middle.Keeps more after := by
  refine ⟨fun topic choice hfind => ?_, fun topic choice hfind => hsecond.find?_eq hfind,
    fun topic choice hfind event hmem htopic => ?_⟩
  · have hentry := Answers.mem_of_find? hfind
    rw [hfirst.entries] at hentry
    obtain ⟨event, hmem, hanswer⟩ := List.mem_filterMap.mp hentry
    exact hfirst.admits hmem hanswer
  · have hopen := hsecond.unsettled hmem htopic
    rw [hfind] at hopen
    cases hopen

end Session

/-! ## Runs as conversations -/

variable {σ : Type} (interaction : Interaction σ)

namespace Resolution

variable {interaction} {context : Context} {table : Table} {text : Text} {before after : Session σ}

/-- In a resolution that succeeds no question fails. Its verdicts are those that were settled before
it, and the answers that it got. -/
theorem tryResolve_succeeds {resolution : Resolution}
    (h : (tryResolve interaction context table (Source.rules context.path text) text).run.run
      before = (.ok resolution, after)) :
    (∃ events, Session.Path interaction before events after ∧
      ∀ event ∈ events, event.isFailure = false) ∧
    (∀ topic choice, before.answers.find? topic = some choice →
      after.answers.verdict topic = choice.getD topic.token) ∧
    ∀ session, (resolveFile interaction context (table.pin after.answers.verdict) text).run.run
      session = (.ok resolution, session) := by
  obtain ⟨events, hevents, horderly⟩ :=
    tryResolve_converses interaction context table _ text _ _ _ h
  refine ⟨⟨events, hevents, horderly.success rfl⟩, fun topic choice hfind => ?_, fun session => ?_⟩
  · rw [Answers.verdict, hevents.find?_eq hfind]
    rfl
  · rw [resolveFile_pinned interaction context h rfl rfl]
    rfl

/-- A resolution that fails does so at its last question. What was settled before that stays. -/
theorem tryResolve_fails {error : Error}
    (h : (tryResolve interaction context table (Source.rules context.path text) text).run.run
      before = (.error (.error error), after)) :
    ∃ events topic question,
      Session.Path interaction before (events ++ [.failed topic question]) after ∧
      (∀ event ∈ events, event.isFailure = false) ∧
      after.answers.entries = before.answers.entries ++ events.filterMap Event.answer? := by
  obtain ⟨events, hevents, horderly⟩ :=
    tryResolve_converses interaction context table _ text _ _ _ h
  obtain ⟨earlier, topic, question, rfl, hearlier⟩ := horderly.failure rfl
  refine ⟨earlier, topic, question, hevents, hearlier, ?_⟩
  rw [hevents.entries]
  simp [Event.answer?]

end Resolution

variable (context : Context)

theorem Resolution.resolveFile_converses (table : Table) (text : Text) :
    Converses interaction .free (resolveFile interaction context table text) := by
  intro before outcome after h
  obtain ⟨hrun, -⟩ | ⟨error, middle, hrun, rfl, rfl⟩ := resolveFile_cases h
  · obtain ⟨events, hevents, -⟩ := tryResolve_converses interaction context table _ text _ _ _ hrun
    exact ⟨events, hevents, trivial⟩
  · obtain ⟨events, hevents, -⟩ := tryResolve_converses interaction context table _ text _ _ _ hrun
    exact ⟨_, hevents.append (.hear middle _), trivial⟩

theorem Plugin.apply_converses (plugin : Plugin) (config : Json) (text : Text) :
    Converses interaction .free (plugin.apply interaction context config text) := by
  obtain ⟨-, pairs, -, happly⟩ | ⟨-, error, -, happly⟩ | ⟨-, table, -, happly⟩ | ⟨error, happly⟩ :=
    apply_cases ..
  · rw [happly]
    exact Converses.pure _
  · rw [happly]
    intro before outcome after h
    cases h
    exact ⟨[], .nil before, trivial⟩
  · rw [happly]
    exact resolveFile_converses interaction context table text
  · rw [happly]
    exact (Converses.log _ _).bind fun _ => Converses.pure _

theorem Migration.applyStep_converses (path : String) (done : Resolution) (step : MigrationStep) :
    Converses interaction .free (applyStep interaction context path done step) := by
  intro before outcome after h
  obtain ⟨-, rfl, lines, rfl⟩ | ⟨-, plugin, resolution, middle, lines, -, happly, rfl, rfl⟩ |
    ⟨-, halt, hhalts, rfl⟩ := applyStep_cases h
  · exact ⟨_, .hear before lines, trivial⟩
  · obtain ⟨events, hevents, -⟩ := Plugin.apply_converses interaction context plugin step.config
      done.data _ _ _ happly
    exact ⟨_, hevents.append (.hear middle lines), trivial⟩
  · obtain ⟨-, -, -, rfl⟩ | ⟨plugin, -, hplugin⟩ := hhalts
    · exact ⟨[], .nil _, trivial⟩
    · cases halt with
      | error error =>
        obtain ⟨-, -, rfl⟩ := hplugin
        exact ⟨[], .nil _, trivial⟩
      | panic =>
        obtain ⟨-, table, -, hrun⟩ := hplugin
        exact resolveFile_converses interaction context table done.data _ _ _ hrun

theorem Migration.applySteps_converses (path : String) (steps : List MigrationStep) (text : Text) :
    Converses interaction .free (applySteps interaction context path steps text) :=
  Converses.foldlM (fun done step _ => applyStep_converses interaction context path done step) _

namespace Run

variable {interaction} {options : RunOptions} {steps : List MigrationStep}

/-- Whatever becomes of a file, there is a path to it. -/
theorem Ends.path {progress : Option Progress} {path : String} {run after : Run σ}
    {result : FileResult} (h : Ends interaction options steps progress path run result after) :
    ∃ events, Session.Path interaction run.session events after.session := by
  cases h with
  | unread hload => exact ⟨_, .hear run.session _⟩
  | broken hload hsteps | unwritten hload hsteps hchanges hdry hfailed =>
    obtain ⟨events, hevents, -⟩ := Migration.applySteps_converses interaction _ _ _ _ _ _ _ hsteps
    exact ⟨_, hevents.append (.hear _ _)⟩
  | panicked hload hsteps | kept hload hsteps hkept | written hload hsteps hchanges hdry hmoved =>
    obtain ⟨events, hevents, -⟩ := Migration.applySteps_converses interaction _ _ _ _ _ _ _ hsteps
    exact ⟨events, hevents⟩

variable (interaction options steps) in
theorem migrateFrom_path (start total : Nat) (paths : List String) (run : Run σ) :
    ∃ events, Session.Path interaction run.session events
      (run.migrateFrom interaction options steps start total paths).2.session := by
  induction paths generalizing start run with
  | nil => exact ⟨[], .nil run.session⟩
  | cons first rest ih =>
    obtain ⟨events, hevents⟩ := (migrateFile_ends interaction options steps
      (some (progressAt start total first)) first run).path
    rw [migrateFrom_cons]
    split
    · exact ⟨events, hevents⟩
    · obtain ⟨more, hmore⟩ := ih (start + 1) _
      exact ⟨events ++ more, hevents.append hmore⟩

end Run

/-! ## Calls -/

/-- What a call is to migrate: one file, or files in their order. -/
inductive Task where
  | file (progress : Option Progress) (path : String)
  | files (paths : List String)

/-- A call: the files as it finds them, the steps, and what to migrate. -/
structure Call where
  tree : FileTree
  steps : List MigrationStep
  task : Task

variable (options : RunOptions)

/-- The results of a call, and the run after it. -/
def Call.perform (call : Call) (session : Session σ) : List FileResult × Run σ :=
  match call.task with
  | .file progress path =>
    let (result, run) :=
      Run.migrateFile interaction options call.steps progress path ⟨call.tree, session⟩
    ([result], run)
  | .files paths => Run.migrateFiles interaction options call.steps paths ⟨call.tree, session⟩

namespace Session

/-- The session after calls, one after the other. -/
def afterCalls (calls : List Call) (session : Session σ) : Session σ :=
  calls.foldl (fun session call => (call.perform interaction options session).2.session) session

variable {interaction}

theorem afterCalls_path (calls : List Call) (session : Session σ) :
    ∃ events, Path interaction session events (session.afterCalls interaction options calls) := by
  induction calls generalizing session with
  | nil => exact ⟨[], .nil session⟩
  | cons call calls ih =>
    have hcall : ∃ events,
        Path interaction session events (call.perform interaction options session).2.session := by
      unfold Call.perform
      cases call.task with
      | file progress path =>
        exact (Run.migrateFile_ends interaction options call.steps progress path
          ⟨call.tree, session⟩).path
      | files paths =>
        exact Run.migrateFrom_path interaction options call.steps 0 paths.length paths
          ⟨call.tree, session⟩
    obtain ⟨events, hevents⟩ := hcall
    obtain ⟨more, hmore⟩ := ih _
    exact ⟨events ++ more, hevents.append hmore⟩

/-- A question is settled once for all calls of a session. All that calls do to it is a path of log
lines, accepted answers and failed questions, and those are all the questions that are asked. At
every point of it what is settled is settled by a choice that was offered, stays so, and is not
asked about again. Where a choice decides whose topic is settled the answer is used, and a whole
resolution is that by the table in which choices have given way to the answers. A resolution that
fails leaves the text as it was, and of its answers it keeps those before the question that
failed. -/
theorem afterCalls_settle_questions (interaction : Interaction σ) (options : RunOptions)
    (first second : List Call) (state : σ) :
    let middle := afterCalls interaction options first ⟨{}, state⟩
    let final := afterCalls interaction options second middle
    (∃ earlier later, Path interaction ⟨{}, state⟩ earlier middle ∧
      Path interaction middle later final ∧ middle.Keeps later final ∧
      (∀ asked, interaction.Records asked → asked final.state =
        asked state ++ (earlier ++ later).filterMap Event.question?) ∧
      (earlier ++ later).Pairwise (fun event next => ∀ topic choice,
        event.answer? = some (topic, choice) → next.topic? ≠ some topic) ∧
      ∀ events more, earlier ++ later = events ++ more → ∃ reached,
        Path interaction ⟨{}, state⟩ events reached ∧ Path interaction reached more final ∧
        reached.answers.entries = events.filterMap Event.answer? ∧ reached.Keeps more final) ∧
    (∀ (session : Session σ) context text entry property offset candidates choice,
      entry.mapping.replacementIn? property = some (.choice candidates) →
      session.answers.find? ⟨entry.token, candidates⟩ = some choice →
      ∃ message, (replacementFor interaction context text entry property
        offset).run.run session = (.ok choice, session.hear interaction [(.debug, message)])) ∧
    (∀ (before after : Session σ) context table text resolution,
      (tryResolve interaction context table (Source.rules context.path text)
        text).run.run before = (.ok resolution, after) →
      (resolveFile interaction context table text).run.run before =
        (.ok resolution, after) ∧
      (∃ events, Path interaction before events after ∧ ∀ event ∈ events, event.isFailure = false) ∧
      (∀ topic choice, before.answers.find? topic = some choice →
        after.answers.verdict topic = choice.getD topic.token) ∧
      ∀ session, (resolveFile interaction context (table.pin after.answers.verdict)
        text).run.run session = (.ok resolution, session)) ∧
    ∀ (before after : Session σ) context table text error,
      (tryResolve interaction context table (Source.rules context.path text)
        text).run.run before = (.error (.error error), after) →
      (resolveFile interaction context table text).run.run before =
        (.ok ⟨text, []⟩, after.hear interaction [(.error, errorLine error)]) ∧
      ∃ events topic question, Path interaction before (events ++ [.failed topic question]) after ∧
        (∀ event ∈ events, event.isFailure = false) ∧
        after.answers.entries = before.answers.entries ++ events.filterMap Event.answer? := by
  refine ⟨?_, ?_, ?_, ?_⟩
  · obtain ⟨earlier, hearlier⟩ := @afterCalls_path σ interaction options first ⟨{}, state⟩
    obtain ⟨later, hlater⟩ := @afterCalls_path σ interaction options second
      (afterCalls interaction options first ⟨{}, state⟩)
    have hall := hearlier.append hlater
    refine ⟨earlier, later, hearlier, hlater, hearlier.keeps hlater,
      fun asked hrecords => hall.recorded hrecords, hall.settles_once, ?_⟩
    intro events more hsplit
    rw [hsplit] at hall
    obtain ⟨reached, hevents, hmore⟩ := hall.split
    exact ⟨reached, hevents, hmore, hevents.entries, hevents.keeps hmore⟩
  · intro session context text entry property offset candidates choice hchoice hfind
    rw [replacementFor, hchoice]
    exact choose_of_settled hfind interaction context text property offset
  · intro before after context table text resolution h
    exact ⟨resolveFile_of_tryResolve h, tryResolve_succeeds h⟩
  · intro before after context table text error h
    exact ⟨resolveFile_of_error h, tryResolve_fails h⟩

/-- A token for which there is a choice. -/
def choiceEntry : Entry :=
  ⟨utf8 "--a", .conditional [⟨[], .choice [utf8 "--b", utf8 "--c"]⟩]⟩

/-- A call on a script with a value for which there is a choice. -/
def choiceCall (path : String) : Call where
  tree := ⟨[([path], .file Resolution.halfTop)], []⟩
  steps := [⟨"choose", "css-values", .object [("mappings", .object [("--a", .object [("options",
    .array [.object [("replace", .array [.string "--b", .string "--c"])]])])])], none, none, none⟩]
  task := .files [path]

/-- A session with somebody who answers the first question and turns away from the second. -/
def answeredOnce : Session Script :=
  ⟨{}, { replies := [.choice (some (utf8 "--b")), .failure "closed"] }⟩

/-- The session with the answer left out. -/
def turnedAway : Session Script :=
  ⟨{}, { replies := [.failure "closed"] }⟩

/-- An answer is used as if the table had it; a question that is turned away leaves the text as it
was; one that was skipped before is not asked; and calls ask what their events tell. -/
theorem afterCalls_settle_questions_choiceEntry :
    (∃ after resolution,
      (Resolution.tryResolve (Script.interaction true) ⟨utf8 "s.js", true, none⟩ [choiceEntry]
        (Source.rules (utf8 "s.js") Resolution.halfTop) Resolution.halfTop).run.run answeredOnce =
        (.ok resolution, after) ∧
      (Resolution.resolveFile (Script.interaction true) ⟨utf8 "s.js", true, none⟩
        (Table.pin after.answers.verdict [choiceEntry]) Resolution.halfTop).run.run turnedAway =
        (.ok resolution, turnedAway)) ∧
    (∃ after error,
      (Resolution.tryResolve (Script.interaction true) ⟨utf8 "s.js", true, none⟩ [choiceEntry]
        (Source.rules (utf8 "s.js") Resolution.halfTop) Resolution.halfTop).run.run turnedAway =
        (.error (.error error), after) ∧
      (Resolution.resolveFile (Script.interaction true) ⟨utf8 "s.js", true, none⟩ [choiceEntry]
        Resolution.halfTop).run.run turnedAway =
        (.ok ⟨Resolution.halfTop, []⟩,
          after.hear (Script.interaction true) [(.error, Resolution.errorLine error)])) ∧
    (∃ message, (Resolution.replacementFor (Script.interaction true) ⟨utf8 "s.js", true, none⟩
      Resolution.halfTop choiceEntry (utf8 "color") 17).run.run
        ⟨⟨[(⟨utf8 "--a", [utf8 "--b", utf8 "--c"]⟩, none)]⟩, turnedAway.state⟩ =
      (.ok none, hear (Script.interaction true) [(.debug, message)]
        ⟨⟨[(⟨utf8 "--a", [utf8 "--b", utf8 "--c"]⟩, none)]⟩, turnedAway.state⟩)) ∧
    ∃ events : List Event,
      (afterCalls (Script.interaction true) ⟨false, true⟩ [choiceCall "t.js"]
        (afterCalls (Script.interaction true) ⟨false, true⟩ [choiceCall "s.js"]
          answeredOnce)).state.questions = events.filterMap Event.question? := by
  obtain ⟨⟨earlier, later, -, -, -, hasked, -⟩, hsettled, hsucceeds, hfails⟩ :=
    afterCalls_settle_questions (interaction true) ⟨false, true⟩ [choiceCall "s.js"]
      [choiceCall "t.js"] answeredOnce.state
  obtain ⟨answered, resolution, hresolved⟩ : ∃ after resolution,
      (tryResolve (interaction true) ⟨utf8 "s.js", true, none⟩ [choiceEntry]
        (Source.rules (utf8 "s.js") halfTop) halfTop).run.run answeredOnce =
        (.ok resolution, after) := by
    rw [tryResolve, halfTop_targets]
    exact ⟨_, _, rfl⟩
  obtain ⟨after, error, hfailed⟩ : ∃ after error,
      (tryResolve (interaction true) ⟨utf8 "s.js", true, none⟩ [choiceEntry]
        (Source.rules (utf8 "s.js") halfTop) halfTop).run.run turnedAway =
        (.error (.error error), after) := by
    rw [tryResolve, halfTop_targets]
    exact ⟨_, _, rfl⟩
  refine ⟨⟨answered, resolution, hresolved, ?_⟩,
    ⟨after, error, hfailed, (hfails _ _ _ _ _ _ hfailed).1⟩, ?_,
    earlier ++ later, hasked _ (interaction_records true)⟩
  · obtain ⟨-, -, -, hpinned⟩ := hsucceeds _ _ _ _ _ _ hresolved
    exact hpinned turnedAway
  · exact hsettled _ _ _ choiceEntry (utf8 "color") 17 _ none rfl rfl

end Session

end Restyle
