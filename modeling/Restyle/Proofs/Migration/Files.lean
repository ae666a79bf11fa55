import Restyle.Proofs.File.Tree
import Restyle.Proofs.Migration.Decided
import Restyle.Proofs.Migration.Steps

/-!
# The files of a run

`Run.Ends` lists the ways in which a run can end with a file, and `Run.migrateFile_ends` says that
there are no others. From them follows what happens to the files: a file is migrated as a whole or
left as it was, and in that case the run may end with it (`Run.migrateFiles_all_or_nothing`); other
files stay as they are but for those that a write takes the place of (`Run.migrateFiles_frame`).
-/

namespace Restyle

open FileTree Interaction Migration Resolution

open Migration (Chain Fails isDue finalText)

theorem FileTree.node?_of_load {tree : FileTree} {path operation : String} {text : Text}
    (h : tree.load path operation = .ok text) : tree.node? path = some (.file text) := by
  have hread : tree.read path = .ok text := by
    unfold load at h
    cases hread : tree.read path with
    | error fault =>
      rw [hread] at h
      cases h
    | ok content =>
      rw [hread] at h
      cases h
      rfl
  obtain ⟨place, hlocate, hplace⟩ := bind_eq_ok_iff.mp hread
  rw [node?, hlocate]
  cases place with
  | free location => cases hplace
  | taken location node =>
    cases node with
    | directory => cases hplace
    | file content =>
      simp only at hplace
      split at hplace
      · cases hplace
        rfl
      · cases hplace

namespace Run

variable {σ : Type} (interaction : Interaction σ) (options : RunOptions)
  (steps : List MigrationStep) (progress : Option Progress) (path : String) (run : Run σ)

/-- What the steps of a file are told of their surroundings. -/
def context : Context :=
  ⟨utf8 path, options.interactive && interaction.isInteractive, progress⟩

/-- The line that reports the failure of a file. -/
def failLine (path : String) (error : Error) : Level × String :=
  (.error, "Failed to process " ++ path ++ ": " ++ error.message)

/-- How a run ends with a file: it cannot be read, or a step fails or panics, or there is nothing to
write, or it is written, or it cannot be. -/
inductive Ends : FileResult → Run σ → Prop where
  | unread {error} :
      run.tree.load path "read source file" = .error error →
      Ends ⟨path, .error (.error error)⟩
        ⟨run.tree, run.session.hear interaction [failLine path error]⟩
  | broken {text error session} :
      run.tree.load path "read source file" = .ok text →
      (applySteps interaction (context interaction options progress path) path steps
        text).run.run run.session = (.error (.error error), session) →
      Ends ⟨path, .error (.error error)⟩
        ⟨run.tree, session.hear interaction [failLine path error]⟩
  | panicked {text session} :
      run.tree.load path "read source file" = .ok text →
      (applySteps interaction (context interaction options progress path) path steps
        text).run.run run.session = (.error .panic, session) →
      Ends ⟨path, .error .panic⟩ ⟨run.tree, session⟩
  | kept {text resolution session} :
      run.tree.load path "read source file" = .ok text →
      (applySteps interaction (context interaction options progress path) path steps
        text).run.run run.session = (.ok resolution, session) →
      resolution.changes = [] ∨ options.dryRun →
      Ends ⟨path, .ok resolution.changes⟩
        ⟨run.tree, session⟩
  | written {text resolution session moved} :
      run.tree.load path "read source file" = .ok text →
      (applySteps interaction (context interaction options progress path) path steps
        text).run.run run.session = (.ok resolution, session) →
      resolution.changes ≠ [] → options.dryRun = false →
      run.tree.writeAtomic path resolution.data "write migrated file" = (.ok (), moved) →
      Ends ⟨path, .ok resolution.changes⟩
        ⟨moved, session⟩
  | unwritten {text resolution session error} :
      run.tree.load path "read source file" = .ok text →
      (applySteps interaction (context interaction options progress path) path steps
        text).run.run run.session = (.ok resolution, session) →
      resolution.changes ≠ [] → options.dryRun = false →
      run.tree.writeAtomic path resolution.data "write migrated file" = (.error error, run.tree) →
      Ends ⟨path, .error (.error error)⟩
        ⟨run.tree, session.hear interaction [failLine path error]⟩

/-- A run ends with every file in one of these ways. -/
theorem migrateFile_ends :
    Ends interaction options steps progress path run
      (run.migrateFile interaction options steps progress path).1
      (run.migrateFile interaction options steps progress path).2 := by
  unfold migrateFile
  cases hload : run.tree.load path "read source file" with
  | error error => exact .unread hload
  | ok text =>
    simp only
    rcases hsteps : (applySteps interaction (context interaction options progress path)
      path steps text).run.run run.session with ⟨outcome, session⟩
    have hrun := hsteps
    rw [context] at hrun
    rw [hrun]
    rcases outcome with (error | _) | resolution
    · exact .broken hload hsteps
    · exact .panicked hload hsteps
    · simp only [finish]
      split
      next hkept =>
        refine .kept hload hsteps ?_
        simpa using hkept
      next hwrite =>
        obtain ⟨hchanges, hdry⟩ : resolution.changes ≠ [] ∧ options.dryRun = false := by
          simpa using hwrite
        -- The file was there to be read, so a write that fails has changed nothing.
        obtain ⟨error, hfailed⟩ | ⟨moved, hmoved⟩ :=
          writeAtomic_of_file (node?_of_load hload) resolution.data "write migrated file"
        · simp only [hfailed]
          exact .unwritten hload hsteps hchanges hdry hfailed
        · simp only [hmoved]
          exact .written hload hsteps hchanges hdry hmoved

/-! ## All or nothing -/

/-- Why a file fails: it cannot be read, or a step that is due fails after those before it are done,
or all steps are done but the file cannot be written. -/
inductive Failure (error : Error) : Prop where
  | unread :
      run.tree.load path "read source file" = .error error →
      Failure error
  | broken {text earlier step later resolutions session} :
      run.tree.load path "read source file" = .ok text →
      steps.filter (isDue path) = earlier ++ step :: later →
      Chain interaction (context interaction options progress path) earlier text run.session
        resolutions session →
      Fails step error →
      Failure error
  | unwritten {text resolutions session} :
      run.tree.load path "read source file" = .ok text →
      Chain interaction (context interaction options progress path) (steps.filter (isDue path)) text
        run.session resolutions session →
      resolutions.flatMap changes ≠ [] → options.dryRun = false →
      run.tree.writeAtomic path (finalText text resolutions) "write migrated file" =
        (.error error, run.tree) →
      Failure error

/-- Why a run ends in a file: a step that is due cuts a character, after those before it are done.
Its table has a token with a space at an end. -/
inductive Panic (after : Session σ) : Prop where
  | cut {text earlier step later resolutions middle plugin table} :
      run.tree.load path "read source file" = .ok text →
      steps.filter (isDue path) = earlier ++ step :: later →
      Chain interaction (context interaction options progress path) earlier text run.session
        resolutions middle →
      Plugin.ofName step.plugin = .ok plugin → plugin ≠ .simpleReplace →
      Table.read step.config = .ok table → (∃ entry ∈ table, ¬ entry.token.IsFlush) →
      (resolveFile interaction (context interaction options progress path) table
        (finalText text resolutions)).run.run middle = (.error .panic, after) →
      Panic after

variable {interaction options steps progress path run} {result : FileResult} {after : Run σ}

theorem Ends.path_eq (h : Ends interaction options steps progress path run result after) :
    result.path = path := by
  cases h <;> rfl

/-- A result of the file at a path: its changes, which are in the file unless the run is dry, or an
error or a panic that leaves all files as they were. -/
theorem Ends.all_or_nothing (h : Ends interaction options steps progress path run result after) :
    (∃ text resolutions, run.tree.load path "read source file" = .ok text ∧
      Chain interaction (context interaction options progress path) (steps.filter (isDue path)) text
        run.session resolutions after.session ∧
      result = ⟨path, .ok (resolutions.flatMap changes)⟩ ∧
      after.tree.node? path = some (.file
        (if resolutions.flatMap changes = [] ∨ options.dryRun then text
        else finalText text resolutions))) ∨
    (∃ error, Failure interaction options steps progress path run error ∧
      result = ⟨path, .error (.error error)⟩ ∧ after.tree = run.tree) ∨
    Panic interaction options steps progress path run after.session ∧
      result = ⟨path, .error .panic⟩ ∧ after.tree = run.tree := by
  cases h with
  | unread hload => exact .inr (.inl ⟨_, .unread hload, rfl, rfl⟩)
  | broken hload hsteps =>
    obtain ⟨earlier, step, later, resolutions, middle, hsplit, hchain, hhalts⟩ :=
      applySteps_halt hsteps
    exact .inr (.inl ⟨_, .broken hload hsplit hchain hhalts.fails, rfl, rfl⟩)
  | panicked hload hsteps =>
    obtain ⟨earlier, step, later, resolutions, middle, hsplit, hchain, hhalts⟩ :=
      applySteps_halt hsteps
    obtain ⟨_, _, hhalt, _⟩ | ⟨plugin, hname, hplugin, table, hread, hpanic⟩ := hhalts
    · cases hhalt
    · obtain ⟨hrun, -⟩ | ⟨_, _, _, houtcome, _⟩ := resolveFile_cases hpanic
      · exact .inr (.inr ⟨.cut hload hsplit hchain hname hplugin hread
          (exists_of_panic hrun) hpanic, rfl, rfl⟩)
      · cases houtcome
  | kept hload hsteps hkept =>
    obtain ⟨resolutions, hchain, rfl⟩ := applySteps_ok hsteps
    refine .inl ⟨_, resolutions, hload, hchain, rfl, ?_⟩
    rw [if_pos hkept]
    exact node?_of_load hload
  | written hload hsteps hchanges hdry hmoved =>
    obtain ⟨resolutions, hchain, rfl⟩ := applySteps_ok hsteps
    refine .inl ⟨_, resolutions, hload, hchain, rfl, ?_⟩
    rw [if_neg (by simp [hchanges, hdry])]
    exact writeAtomic_node? hmoved
  | unwritten hload hsteps hchanges hdry hfailed =>
    obtain ⟨resolutions, hchain, rfl⟩ := applySteps_ok hsteps
    exact .inr (.inl ⟨_, .unwritten hload hchain hchanges hdry hfailed, rfl, rfl⟩)

variable (interaction options steps run) (start total : Nat) (paths : List String)

/-- The results of a run are those of its first file and, unless the run ends there, of the
others. -/
theorem migrateFrom_cons (first : String) (rest : List String) :
    let made := run.migrateFile interaction options steps (some (progressAt start total first))
      first
    let others := made.2.migrateFrom interaction options steps (start + 1) total rest
    run.migrateFrom interaction options steps start total (first :: rest) =
      if made.1.isPanic then ([made.1], made.2) else (made.1 :: others.1, others.2) :=
  rfl

/-- A run goes from file to file, each with the result that it has there. It ends where it
panics. -/
theorem migrateFrom_states :
    let results := (run.migrateFrom interaction options steps start total paths).1
    ∃ states : Nat → Run σ, states 0 = run ∧
      states results.length = (run.migrateFrom interaction options steps start total paths).2 ∧
      ∀ index path result, paths[index]? = some path → results[index]? = some result →
        (states index).migrateFile interaction options steps
          (some (progressAt (start + index) total path)) path = (result, states (index + 1)) ∧
        (result.isPanic → results.length = index + 1) := by
  induction paths generalizing start run with
  | nil => exact ⟨fun _ => run, rfl, rfl, fun index path result hpath => by simp at hpath⟩
  | cons first rest ih =>
    rw [migrateFrom_cons]
    rcases hfirst : run.migrateFile interaction options steps (some (progressAt start total first))
      first with ⟨made, next⟩
    simp only
    split
    next hpanic =>
      refine ⟨fun index => Nat.casesOn index run fun _ => next, rfl, rfl, ?_⟩
      intro index path result hpath hresult
      cases index with
      | zero =>
        cases hpath
        cases hresult
        exact ⟨hfirst, fun _ => rfl⟩
      | succ index => cases hresult
    next hpanic =>
      obtain ⟨states, hzero, hlast, hstates⟩ := ih next (start + 1)
      -- The states of the rest are those of the whole run, one file later.
      refine ⟨fun index => Nat.casesOn index run states, rfl, hlast, ?_⟩
      intro index path result hpath hresult
      cases index with
      | zero =>
        cases hpath
        cases hresult
        exact ⟨hfirst.trans (by rw [← hzero]), fun h => absurd h hpanic⟩
      | succ index =>
        obtain ⟨hmade, hends⟩ := hstates index path result hpath hresult
        rw [show start + (index + 1) = start + 1 + index by omega]
        exact ⟨hmade, fun h => congrArg (· + 1) (hends h)⟩

/-- The results are those of the first paths, and of all if the run does not panic. -/
theorem migrateFrom_paths :
    let results := (run.migrateFrom interaction options steps start total paths).1
    results.map FileResult.path <+: paths ∧
      ((∀ result ∈ results, result.isPanic = false) → results.map FileResult.path = paths) := by
  induction paths generalizing start run with
  | nil => exact ⟨List.prefix_refl [], fun _ => rfl⟩
  | cons first rest ih =>
    rw [migrateFrom_cons]
    have hpath := (migrateFile_ends interaction options steps (some (progressAt start total first))
      first run).path_eq
    simp only
    split
    next hpanic =>
      refine ⟨⟨rest, by simp [hpath]⟩, fun h => ?_⟩
      rw [h _ (List.mem_singleton_self _)] at hpanic
      cases hpanic
    · obtain ⟨hfront, hall⟩ := ih _ (start + 1)
      rw [List.map_cons, hpath]
      refine ⟨(List.prefix_cons_inj first).mpr hfront, fun h => ?_⟩
      rw [hall (List.forall_mem_cons.mp h).2]

/-- A file is migrated as a whole or not at all. Either it succeeds: its changes are those of the
steps that are due, in their order, each done on the text that the one before it left, and the file
has the last text if there are changes and the run is not dry, and its old text otherwise. Or it
fails, be it in the last step: there is an error and no change, and every file is as it was. Or a
step cuts a character, which it does only for a token with a space at an end: then too there is no
change and every file is as it was, but the run ends there. Files are migrated one after the other,
whatever becomes of those before them unless the run ends there, and each has its result at the
place of its path. -/
theorem migrateFiles_all_or_nothing (interaction : Interaction σ) (options : RunOptions)
    (steps : List MigrationStep) (run : Run σ) :
    (∀ (progress : Option Progress) (path : String),
      let result := (run.migrateFile interaction options steps progress path).1
      let after := (run.migrateFile interaction options steps progress path).2
      (∃ text resolutions,
        run.tree.load path "read source file" = .ok text ∧
        run.tree.node? path = some (.file text) ∧
        Chain interaction (context interaction options progress path) (steps.filter (isDue path))
          text run.session resolutions after.session ∧
        result.isSuccess = true ∧ result.problem? = none ∧
        result.changes = resolutions.flatMap changes ∧
        after.tree.node? path = some (.file
          (if result.changes = [] ∨ options.dryRun = true then text
          else finalText text resolutions))) ∨
      (∃ error, Failure interaction options steps progress path run error ∧
        result.isSuccess = false ∧ result.isPanic = false ∧ result.changes = [] ∧
        result.problem? = some error.message ∧ after.tree = run.tree) ∨
      Panic interaction options steps progress path run after.session ∧
        result.isPanic = true ∧ result.changes = [] ∧ after.tree = run.tree) ∧
    ∀ paths : List String,
      let results := (run.migrateFiles interaction options steps paths).1
      results.map FileResult.path <+: paths ∧
      ((∀ result ∈ results, result.isPanic = false) → results.map FileResult.path = paths) ∧
      ∃ states : Nat → Run σ, states 0 = run ∧
        states results.length = (run.migrateFiles interaction options steps paths).2 ∧
        ∀ index path result, paths[index]? = some path → results[index]? = some result →
          (states index).migrateFile interaction options steps
            (some (progressAt index paths.length path)) path = (result, states (index + 1)) ∧
          (result.isPanic = true → results.length = index + 1) := by
  refine ⟨fun progress path => ?_, fun paths => ?_⟩
  · obtain ⟨text, resolutions, hload, hchain, hresult, hnode⟩ | ⟨error, hfailure, hresult, htree⟩ |
      ⟨hpanic, hresult, htree⟩ := (migrateFile_ends ..).all_or_nothing
    · refine .inl ⟨text, resolutions, hload, node?_of_load hload, hchain, ?_⟩
      rw [hresult]
      exact ⟨rfl, rfl, rfl, hnode⟩
    · refine .inr (.inl ⟨error, hfailure, ?_⟩)
      rw [hresult]
      exact ⟨rfl, rfl, rfl, rfl, htree⟩
    · refine .inr (.inr ⟨hpanic, ?_⟩)
      rw [hresult]
      exact ⟨rfl, rfl, htree⟩
  · obtain ⟨hfront, hall⟩ := migrateFrom_paths interaction options steps run 0 paths.length paths
    have hstates := migrateFrom_states interaction options steps run 0 paths.length paths
    simp only [Nat.zero_add] at hstates
    exact ⟨hfront, hall, hstates⟩

/-- A step that replaces a word. -/
def wordStep : MigrationStep :=
  ⟨"words", "simple-replace", .object [("mappings", .object [("old", .string "new")])], none, none,
    none⟩

/-- A step for which there is no plugin. -/
def lostStep : MigrationStep :=
  ⟨"lost", "nowhere", .null, none, none, none⟩

/-- A run on a file, beside which stands another with the name that a write goes through. -/
def siblings : Run Unit :=
  ⟨⟨[(["a.css"], .file (utf8 "old")), (["a.css.tmp"], .file (utf8 "kept"))], []⟩, Session.silent⟩

/-- A step that is lost undoes the change before it; a file that is missing does not keep the next
one from being migrated. -/
theorem migrateFiles_all_or_nothing_siblings :
    (siblings.migrateFile Interaction.silent ⟨false, false⟩ [wordStep, lostStep] none
        "a.css").1.isSuccess = false ∧
    (siblings.migrateFile Interaction.silent ⟨false, false⟩ [wordStep, lostStep] none
        "a.css").2.tree = siblings.tree ∧
    (siblings.migrateFiles Interaction.silent ⟨false, false⟩ [wordStep]
        ["missing.css", "a.css"]).1.map FileResult.isSuccess = [false, true] ∧
    (siblings.migrateFiles Interaction.silent ⟨false, false⟩ [wordStep]
        ["missing.css", "a.css"]).1.map FileResult.path = ["missing.css", "a.css"] ∧
    ∃ (result : FileResult) (middle after : Run Unit),
      (siblings.migrateFiles Interaction.silent ⟨false, false⟩ [wordStep]
        ["missing.css", "a.css"]).1[1]? = some result ∧
      middle.migrateFile Interaction.silent ⟨false, false⟩ [wordStep]
        (some (progressAt 1 2 "a.css")) "a.css" = (result, after) := by
  have hlost : (siblings.migrateFile silent ⟨false, false⟩ [wordStep, lostStep] none
      "a.css").1.isSuccess = false := by decide
  obtain ⟨-, hpaths, states, -, -, hstates⟩ := (migrateFiles_all_or_nothing silent
    ⟨false, false⟩ [wordStep] siblings).2 ["missing.css", "a.css"]
  refine ⟨hlost, ?_, by decide, hpaths (by decide), _, states 1, states 2, rfl,
    (hstates 1 "a.css" _ rfl rfl).1⟩
  obtain ⟨-, -, -, -, -, hsuccess, -⟩ | ⟨-, -, -, -, -, -, htree⟩ | ⟨-, -, -, htree⟩ :=
    (migrateFiles_all_or_nothing silent ⟨false, false⟩ [wordStep, lostStep]
      siblings).1 none "a.css"
  · rw [hlost] at hsuccess
    cases hsuccess
  · exact htree
  · exact htree

/-- A step that replaces spaces. -/
def spaceStep : MigrationStep :=
  ⟨"spaces", "css-values", .object [("mappings", .object [(" ", .string "x")])], none, none, none⟩

/-- A value with a comment in which there is a character of two bytes. -/
def letteredSheet : Text :=
  utf8 ".a\x7bcolor:red/*é*/blue\x7d"

/-- A run on the file of the value. -/
def lettered : Run Unit :=
  ⟨⟨[(["a.css"], .file letteredSheet)], []⟩, Session.silent⟩

theorem migrateFile_lettered (progress : Option Progress) :
    lettered.migrateFile silent ⟨false, false⟩ [spaceStep] progress "a.css" =
      (⟨"a.css", .error .panic⟩, lettered) := by
  have htargets := (@Target.ofRules_of_closed (utf8 "a.css") letteredSheet .css [⟨2, 22⟩] _
    (by decide) (by decide) (by decide) rfl (by decide)).2
  have hresolve : resolveFile silent ⟨utf8 "a.css", false, progress⟩
      [⟨utf8 " ", .plain (utf8 "x")⟩] letteredSheet = throw .panic := by
    rw [resolveFile, resolve, tryResolve, htargets]
    rfl
  have hsteps : applySteps silent ⟨utf8 "a.css", false, progress⟩ "a.css" [spaceStep]
      letteredSheet = throw .panic := by
    change (resolveFile _ _ [⟨utf8 " ", .plain (utf8 "x")⟩] letteredSheet >>=
      fun _ => _) >>= (fun _ => _) = _
    rw [hresolve]
    rfl
  unfold migrateFile
  rw [show lettered.tree.load "a.css" "read source file" = .ok letteredSheet from rfl]
  simp only [Bool.false_and, hsteps]
  rfl

/-- The space is found inside the character, and the run ends there without a result for the file
that comes after it. -/
theorem migrateFiles_ends_in_comment :
    (lettered.migrateFile silent ⟨false, false⟩ [spaceStep] none "a.css").1.isPanic =
      true ∧
    (lettered.migrateFiles silent ⟨false, false⟩ [spaceStep]
      ["a.css", "missing.css"]).1.map FileResult.path = ["a.css"] := by
  rw [migrateFile_lettered, migrateFiles, migrateFrom_cons, migrateFile_lettered]
  exact ⟨rfl, rfl⟩

/-! ## Other files -/

/-- A run that is not dry wrote a file with changes to the location, or through it. -/
def Writes (options : RunOptions) (tree : FileTree) (results : List FileResult)
    (location : Location) : Prop :=
  options.dryRun = false ∧ ∃ result ∈ results, result.isSuccess ∧ result.changes ≠ [] ∧
    (location = tree.destination (Route.ofString result.path) ∨
      location = beside (tree.destination (Route.ofString result.path)))

/-- The tree is changed only where a file is written. -/
theorem Ends.agrees (h : Ends interaction options steps progress path run result after) :
    FileTree.AgreesOutside (Writes options run.tree [result]) run.tree after.tree := by
  cases h with
  | unread | broken | panicked | kept | unwritten => exact .refl run.tree
  | written hload hsteps hchanges hdry hmoved =>
    refine (writeAtomic_agrees hmoved).imp fun location hlocation => ?_
    exact ⟨hdry, _, List.mem_singleton_self _, rfl, hchanges, hlocation⟩

/-- A run changes the tree only where it writes a file. -/
theorem migrateFrom_agrees :
    FileTree.AgreesOutside
      (Writes options run.tree (run.migrateFrom interaction options steps start total paths).1)
      run.tree (run.migrateFrom interaction options steps start total paths).2.tree := by
  induction paths generalizing start run with
  | nil => exact .refl run.tree
  | cons first rest ih =>
    have hfirst := (migrateFile_ends interaction options steps
      (some (progressAt start total first)) first run).agrees
    rw [migrateFrom_cons]
    split
    · exact hfirst
    · refine (hfirst.imp ?_).trans ((ih _ (start + 1)).imp ?_)
      · rintro location ⟨hdry, result, hmem, hwritten⟩
        cases List.mem_singleton.mp hmem
        exact ⟨hdry, _, List.mem_cons_self, hwritten⟩
      · rintro location ⟨hdry, result, hmem, hwritten⟩
        -- The first file changes no directory, so the other paths name what they did before it.
        rw [hfirst.destination_eq] at hwritten
        exact ⟨hdry, result, List.mem_cons_of_mem _ hmem, hwritten⟩

/-- Migrating files leaves others alone, but for those beside the files that are written. After a
write that succeeds the target has the content, nothing stands beside it, and every other path leads
to what it led to. After a run a path leads to something else only if it names a file that was
migrated with changes, or the name with `.tmp` added beside one. -/
theorem migrateFiles_frame (interaction : Interaction σ) (options : RunOptions)
    (steps : List MigrationStep) (paths : List String) (run : Run σ) :
    (∀ (tree moved : FileTree) (path operation : String) (content : Text),
      tree.writeAtomic path content operation = (.ok (), moved) →
      let target := tree.destination (Route.ofString path)
      moved.node? path = some (.file content) ∧
      (∀ location, moved.nodeAt? location =
        if location = target then some (.file content)
        else if location = beside target then none
        else tree.nodeAt? location) ∧
      ∀ other, tree.destination (Route.ofString other) ≠ target →
        tree.destination (Route.ofString other) ≠ beside target →
        moved.node? other = tree.node? other) ∧
    let results := (run.migrateFiles interaction options steps paths).1
    let after := (run.migrateFiles interaction options steps paths).2
    results.map FileResult.path <+: paths ∧
    ((∀ result ∈ results, result.isPanic = false) → results.map FileResult.path = paths) ∧
    (∀ location, after.tree.nodeAt? location ≠ run.tree.nodeAt? location →
      Writes options run.tree results location) ∧
    ∀ other, after.tree.node? other ≠ run.tree.node? other →
      Writes options run.tree results (run.tree.destination (Route.ofString other)) := by
  refine ⟨?_, (migrateFrom_paths ..).1, (migrateFrom_paths ..).2, fun location hchanged => ?_,
    fun other hchanged => ?_⟩
  · intro tree moved path operation content h
    refine ⟨writeAtomic_node? h, writeAtomic_nodeAt? h, ?_⟩
    intro other htarget hbeside
    exact (writeAtomic_agrees h).node?_eq (not_or.mpr ⟨htarget, hbeside⟩)
  · exact Classical.byContradiction fun hsame =>
      hchanged ((migrateFrom_agrees ..).outside location hsame)
  · exact Classical.byContradiction fun hsame =>
      hchanged ((migrateFrom_agrees ..).node?_eq hsame)

/-- The file beside the target is lost to the write, and it is the only other one that changes. -/
theorem migrateFiles_frame_siblings :
    (siblings.migrateFiles Interaction.silent ⟨false, false⟩ [wordStep] ["a.css"]).2.tree.node?
      "a.css.tmp" ≠ siblings.tree.node? "a.css.tmp" ∧
    Writes ⟨false, false⟩ siblings.tree
      (siblings.migrateFiles Interaction.silent ⟨false, false⟩ [wordStep] ["a.css"]).1
      (siblings.tree.destination (Route.ofString "a.css.tmp")) := by
  have hchanged : (siblings.migrateFiles silent ⟨false, false⟩ [wordStep]
      ["a.css"]).2.tree.node? "a.css.tmp" ≠ siblings.tree.node? "a.css.tmp" := by decide
  obtain ⟨-, -, -, -, hwrites⟩ :=
    migrateFiles_frame silent ⟨false, false⟩ [wordStep] ["a.css"] siblings
  exact ⟨hchanged, hwrites "a.css.tmp" hchanged⟩

/-- A write does not leave every other file alone: one that has the name of the target with `.tmp`
added is gone after it, also if the run was not told of it. -/
theorem migrateFiles_takes_sibling :
    (siblings.tree.writeAtomic "a.css" (utf8 "new") "write").1.isOk = true ∧
    siblings.tree.node? "a.css.tmp" = some (.file (utf8 "kept")) ∧
    (siblings.tree.writeAtomic "a.css" (utf8 "new") "write").2.node? "a.css.tmp" = none ∧
    (siblings.migrateFiles Interaction.silent ⟨false, false⟩ [wordStep] ["a.css"]).2.tree.node?
      "a.css.tmp" = none := by
  decide

end Run

end Restyle
