import Restyle.Proofs.Command.Batches

/-!
# The configuration of a run

A run migrates the file of its own configuration like any other. `Run.Rewrites` says what the
results of a run, one after the other, make of the file at a location, and
`Run.migrateFrom_rewrites` that nothing else happens to it. No file is written through the file of a
configuration, whose name has an extension of its own (`Configuration.ne_beside`), so the
configuration is as it was unless the run has it among its files: `Command.run_configuration`.
-/

namespace Restyle

open Configuration FileTree List Route

open Migration (Chain isDue finalText)

/-- A path to a file leads in every tree with the same directories to what stands in its place. -/
theorem FileTree.AgreesOutside.node?_of_file {changed : Location → Prop} {tree other : FileTree}
    (h : FileTree.AgreesOutside changed tree other) {path next : String} {text : Text}
    (hname : (ofString path).fileName? = some next)
    (hnode : tree.node? path = some (.file text)) :
    other.node? path = other.nodeAt? (tree.destination (ofString path)) := by
  have hlocate := node?_eq_some_iff.mp hnode
  obtain ⟨directory, hleads⟩ := leads_of_locate (steps_of_fileName hname)
    (ending_of_file hlocate) hlocate
  have hother := hleads.mono (fun location => (h.directories location).mp) h.workingDirectory
  rw [hother.node?, hleads.destination]

namespace Run

variable {σ : Type} (interaction : Interaction σ) (options : RunOptions)
  (steps : List MigrationStep) (tree : FileTree) (location : Location)

/-- A run that is not dry reports changes of the file at a location. -/
def Reports (result : FileResult) : Prop :=
  options.dryRun = false ∧ result.isSuccess ∧ result.changes ≠ [] ∧
    tree.destination (ofString result.path) = location

/-- What results of a run, one after the other, make of the text at a location: each that reports
changes of it leaves what the steps that are due made of the text, and no other changes it. -/
inductive Rewrites : List FileResult → Text → Text → Prop where
  | done (text : Text) : Rewrites [] text text
  | other {result results text edited} :
      ¬ Reports options tree location result → Rewrites results text edited →
      Rewrites (result :: results) text edited
  | here {result results text edited progress before resolutions after} :
      Reports options tree location result →
      Chain interaction (context interaction options progress result.path)
        (steps.filter (isDue result.path)) text before resolutions after →
      result.changes = resolutions.flatMap Resolution.changes →
      Rewrites results (finalText text resolutions) edited →
      Rewrites (result :: results) text edited

variable {interaction options steps tree location} {results : List FileResult} {text edited : Text}
  {progress : Option Progress} {path : String}

/-- A text that is rewritten is reported. -/
theorem Rewrites.reports
    (h : Rewrites interaction options steps tree location results text edited)
    (hne : edited ≠ text) : ∃ result ∈ results, Reports options tree location result := by
  induction h with
  | done text => exact absurd rfl hne
  | other hother hrest ih =>
    obtain ⟨result, hmem, hreports⟩ := ih hne
    exact ⟨result, mem_cons_of_mem _ hmem, hreports⟩
  | here hreports => exact ⟨_, mem_cons_self, hreports⟩

/-- Trees in which paths name the same locations are rewritten alike. -/
theorem Rewrites.congr {other : FileTree}
    (h : Rewrites interaction options steps tree location results text edited)
    (hsame : ∀ route, tree.destination route = other.destination route) :
    Rewrites interaction options steps other location results text edited := by
  have hreports : ∀ result, Reports options tree location result ↔
      Reports options other location result := by
    intro result
    rw [Reports, Reports, hsame]
  induction h with
  | done text => exact .done text
  | other hother _ ih => exact .other (fun hhere => hother ((hreports _).mpr hhere)) ih
  | here hhere hchain hchanges _ ih => exact .here ((hreports _).mp hhere) hchain hchanges ih

/-- What becomes of the file at a location when a file is migrated. -/
theorem Ends.rewrites {run after : Run σ} {result : FileResult}
    (h : Ends interaction options steps progress path run result after)
    (hnode : run.tree.nodeAt? location = some (.file text))
    (hbeside : ∀ target, location ≠ beside target) :
    (¬ Reports options run.tree location result ∧ after.tree.nodeAt? location = some (.file text)) ∨
      Reports options run.tree location result ∧ ∃ resolutions session,
        Chain interaction (context interaction options progress result.path)
          (steps.filter (isDue result.path)) text run.session resolutions session ∧
        result.changes = resolutions.flatMap Resolution.changes ∧
        after.tree.nodeAt? location = some (.file (finalText text resolutions)) := by
  cases h with
  | unread | broken | panicked | unwritten =>
    exact .inl ⟨fun hreports => (by cases hreports.2.1), hnode⟩
  | kept hload hsteps hkept =>
    refine .inl ⟨?_, hnode⟩
    rintro ⟨hdry, -, hchanges, -⟩
    rcases hkept with hkept | hkept
    · exact hchanges hkept
    · rw [hdry] at hkept
      cases hkept
  | @written loaded resolution session moved hload hsteps hchanges hdry hmoved =>
    by_cases hlocation : run.tree.destination (ofString path) = location
    · obtain ⟨resolutions, hchain, rfl⟩ := Migration.applySteps_ok hsteps
      have hloaded := nodeAt?_of_node? (node?_of_load hload)
      rw [hlocation, hnode] at hloaded
      cases hloaded
      refine .inr ⟨⟨hdry, rfl, hchanges, hlocation⟩, resolutions, session, hchain, rfl, ?_⟩
      rw [writeAtomic_nodeAt? hmoved, if_pos hlocation.symm]
    · refine .inl ⟨fun hreports => hlocation hreports.2.2.2, ?_⟩
      rw [writeAtomic_nodeAt? hmoved, if_neg (Ne.symm hlocation), if_neg (hbeside _), hnode]

/-- A run makes of the file at a location what its results do. -/
theorem migrateFrom_rewrites (interaction : Interaction σ) (options : RunOptions)
    (steps : List MigrationStep) (start total : Nat) (paths : List String) (run : Run σ)
    (hnode : run.tree.nodeAt? location = some (.file text))
    (hbeside : ∀ target, location ≠ beside target) :
    ∃ edited, (run.migrateFrom interaction options steps start total paths).2.tree.nodeAt?
        location = some (.file edited) ∧
      Rewrites interaction options steps run.tree location
        (run.migrateFrom interaction options steps start total paths).1 text edited := by
  induction paths generalizing start run text with
  | nil => exact ⟨text, hnode, .done text⟩
  | cons first rest ih =>
    have hends := migrateFile_ends interaction options steps (some (progressAt start total first))
      first run
    -- The first file changes no directory, so the other paths name what they did before it.
    have hsame := hends.agrees.destination_eq
    rw [migrateFrom_cons]
    rcases hends.rewrites hnode hbeside with ⟨hother, hkept⟩ |
      ⟨hreports, resolutions, session, hchain, hchanges, hwritten⟩
    · split
      · exact ⟨text, hkept, .other hother (.done text)⟩
      · obtain ⟨edited, hafter, hrewrites⟩ := ih (start + 1) _ hkept
        exact ⟨edited, hafter, .other hother (hrewrites.congr hsame)⟩
    · split
      · exact ⟨_, hwritten, .here hreports hchain hchanges (.done _)⟩
      · obtain ⟨edited, hafter, hrewrites⟩ := ih (start + 1) _ hwritten
        exact ⟨edited, hafter, .here hreports hchain hchanges (hrewrites.congr hsame)⟩

end Run

namespace Configuration

variable {path : String} {format : Format}

/-- A configuration that is loaded is read from a file whose name has an extension. -/
theorem load_ok {environment : Environment} {tree : FileTree} {configuration : Configuration}
    (h : load environment tree path = .ok configuration) :
    ∃ format text, Format.ofPath? (environment.expandPath (trimString path)) = some format ∧
      tree.node? (environment.expandPath (trimString path)) = some (.file text) := by
  obtain ⟨given, hgiven, h⟩ := bind_eq_ok_iff.mp h
  obtain rfl := requireNonEmpty_ok hgiven
  simp only at h
  split at h
  · cases h
  · split at h
    · cases h
    next format hformat =>
      obtain ⟨text, hload, -⟩ := bind_eq_ok_iff.mp h
      exact ⟨format, text, hformat, node?_of_load hload⟩

/-- A configuration has a name, and none that a file is written through. -/
theorem name_of_format (h : Format.ofPath? path = some format) :
    ∃ name, (ofString path).fileName? = some name ∧ ∀ other, name ≠ other ++ ".tmp" := by
  unfold Format.ofPath? at h
  simp only [bind, Option.bind_eq_some_iff] at h
  obtain ⟨extension, hextension, hlookup⟩ := h
  unfold extension? at hextension
  simp only [bind, Option.bind_eq_some_iff] at hextension
  obtain ⟨name, hname, hending⟩ := hextension
  refine ⟨name, hname, ?_⟩
  rintro other rfl
  have hbackwards : (other ++ ".tmp").toList.reverse = 'p' :: 'm' :: 't' :: '.' ::
      other.toList.reverse := by
    rw [String.toList_append, reverse_append]
    rfl
  have htaken : (other ++ ".tmp").toList.reverse.takeWhile (· != '.') = ['p', 'm', 't'] := by
    rw [hbackwards]
    rfl
  rw [htaken] at hending
  split at hending
  · cases hending
    have hunknown : Format.extensions.lookup (String.ofList
        ((String.ofList ['p', 'm', 't'].reverse).toList.map Char.toLower)) = none := by
      decide
    rw [hunknown] at hlookup
    cases hlookup
  · cases hending

/-- No file is written through that of a configuration. -/
theorem ne_beside (h : Format.ofPath? path = some format) (tree : FileTree) (target : Location) :
    tree.destination (ofString path) ≠ beside target := by
  obtain ⟨name, hname, hother⟩ := name_of_format h
  have hdestination : (tree.destination (ofString path)).getLast? = some name := by
    rw [destination, steps_of_fileName hname, foldl_append]
    exact getLast?_concat
  intro heq
  rw [heq, beside] at hdestination
  cases hlast : target.getLast? with
  | none =>
    rw [getLast?_eq_none_iff] at hlast
    rw [hlast] at hdestination
    cases hdestination
  | some last =>
    rw [hlast] at hdestination
    have hsame : last ++ ".tmp" = name := by simpa using hdestination
    exact hother last hsame.symm

end Configuration

namespace Discovery

variable {path : String}

theorem mem_of_mem_distinct {seen : List (Bool × List Route.Step)} {paths : List String}
    (h : path ∈ distinct seen paths) : path ∈ paths := by
  induction paths generalizing seen with
  | nil => cases h
  | cons first rest ih =>
    unfold distinct at h
    split at h
    · exact mem_cons_of_mem _ (ih h)
    · rcases mem_cons.mp h with rfl | h
      · exact mem_cons_self
      · exact mem_cons_of_mem _ (ih h)

/-- A file that is discovered is listed by an include pattern, and no exclude pattern matches it. -/
theorem mem_files {tree : FileTree} {root : String} {includes excludes found : List String}
    (h : files tree root includes excludes = .ok found) (hpath : path ∈ found) :
    (∃ pattern ∈ includes, ∃ listed, Wildcard.Pattern.read (join root pattern) = .ok listed ∧
      path ∈ Wildcard.list tree listed) ∧
    Filter.acceptsAny excludes (relative root path) = false := by
  obtain ⟨lists, hlists, h⟩ := bind_eq_ok_iff.mp h
  cases h
  obtain ⟨list, hlist, hmem⟩ := mem_flatten.mp (mem_of_mem_distinct hpath)
  obtain ⟨pattern, hpattern, hfiles⟩ := exists_of_mem_forall₂ (mapM_eq_ok_iff.mp hlists) hlist
  unfold filesOf at hfiles
  split at hfiles
  · cases hfiles
  next listed hread =>
    cases hfiles
    obtain ⟨hlisted, hkept⟩ := mem_filter.mp hmem
    simp only [Bool.and_eq_true, Bool.not_eq_true'] at hkept
    exact ⟨⟨pattern, hpattern, listed, hread, hlisted⟩, hkept.2⟩

end Discovery

namespace Command

/-- A run is to migrate the file at a path: it is the file that is given, or an include pattern of
the configuration lists it and no exclude pattern matches it. -/
def Planned (setting : Setting) (tree : FileTree) (configuration : Configuration) :
    Option String → String → Prop
  | some file, path => path = setting.environment.expandPath file
  | none, path =>
    (∃ pattern ∈ configuration.includes, ∃ listed,
      Wildcard.Pattern.read (join "" pattern) = .ok listed ∧
      path ∈ Wildcard.list tree listed) ∧
    Filter.acceptsAny configuration.excludes (Discovery.relative "" path) = false

variable {batch : Option String} {files : List String} {configuration : Configuration}
  {file : Option String} {setting : Setting} {tree : FileTree} {config : String}

theorem mem_of_mem_inBatch {window : List String} (h : inBatch files batch = .ok window)
    {path : String} (hpath : path ∈ window) : path ∈ files := by
  cases batch with
  | none =>
    cases h
    exact hpath
  | some range =>
    obtain ⟨bounds, -, h⟩ := bind_eq_ok_iff.mp h
    cases h
    exact mem_of_mem_take (mem_of_mem_drop hpath)

/-- The files of a plan are to be migrated. -/
theorem planned_of_plan {loaded : Configuration}
    (hload : Configuration.load setting.environment tree config = .ok configuration)
    (h : plan setting tree config batch file = .ok (loaded, files)) :
    loaded = configuration ∧ ∀ path ∈ files, Planned setting tree configuration file path := by
  obtain ⟨read, hread, h⟩ := bind_eq_ok_iff.mp h
  cases hload.symm.trans hread
  obtain ⟨all, hall, h⟩ := bind_eq_ok_iff.mp h
  obtain ⟨window, hwindow, h⟩ := bind_eq_ok_iff.mp h
  obtain ⟨rfl, rfl⟩ := Prod.mk.inj (Except.ok.inj h)
  refine ⟨rfl, fun path hpath => ?_⟩
  have hmem := mem_of_mem_inBatch hwindow hpath
  cases file with
  | none => exact Discovery.mem_files hall hmem
  | some given =>
    unfold allFiles at hall
    simp only at hall
    split at hall
    · cases hall
      exact mem_singleton.mp hmem
    · cases hall

/-- A run by a plan migrates the files of the plan and replies with what became of them, unless it
panics. -/
theorem run_of_plan (h : plan setting tree config batch file = .ok (configuration, files))
    (terminal : Terminal) (verbose dryRun noInteractive : Bool) :
    let outcome := run setting tree terminal
      (.migrate config verbose dryRun noInteractive batch file)
    let migrated := Run.migrateFrom (interactionOf setting verbose noInteractive)
      ⟨dryRun, !noInteractive⟩ configuration.steps 0 files.length files ⟨tree, ⟨⟨[]⟩, terminal⟩⟩
    outcome.tree = migrated.2.tree ∧
      outcome.reply.result = if migrated.1.any FileResult.isPanic then .error .panic
        else .ok (migrationData dryRun migrated.1) := by
  simp only [run, h]
  exact ⟨rfl, apply_ite Reply.result ..⟩

/-- What a run makes of its configuration. Let a configuration be loaded, and files migrated by it.
The configuration is in a file before the run and after it. The run has results for the files that
are to be migrated, up to one that it ends in, or none if they cannot be told. It replies with the
results unless it panics, and of the file of the configuration it makes what they say. So this file
has another text only if the run is not dry, was to migrate a path that names it, and did so with
changes. -/
theorem run_configuration (setting : Setting) (tree : FileTree) (terminal : Terminal)
    (config : String) (verbose dryRun noInteractive : Bool) (batch file : Option String)
    {configuration : Configuration}
    (hload : Configuration.load setting.environment tree config = .ok configuration) :
    let path := setting.environment.expandPath (trimString config)
    let location := location setting.environment tree config
    let options : RunOptions := ⟨dryRun, !noInteractive⟩
    let outcome := run setting tree terminal
      (.migrate config verbose dryRun noInteractive batch file)
    ∃ results text edited,
      tree.node? path = some (.file text) ∧ outcome.tree.node? path = some (.file edited) ∧
      ((∃ files, plan setting tree config batch file = .ok (configuration, files) ∧
          (results.map FileResult.path = files ∧
              outcome.reply.result = .ok (migrationData dryRun results) ∨
            results.map FileResult.path <+: files ∧
              (∃ result ∈ results, result.isPanic = true) ∧
              outcome.reply.result = .error .panic)) ∨
        ∃ error, plan setting tree config batch file = .error error ∧ results = [] ∧
          outcome.reply.result = .error (.error error)) ∧
      Run.Rewrites (interactionOf setting verbose noInteractive) options configuration.steps tree
        location results text edited ∧
      (edited ≠ text → ∃ result ∈ results, Planned setting tree configuration file result.path ∧
        Run.Reports options tree location result) := by
  intro path location options outcome
  obtain ⟨format, text, hformat, hnode⟩ := load_ok hload
  obtain ⟨name, hname, -⟩ := name_of_format hformat
  have hbeside : ∀ target, location ≠ beside target := ne_beside hformat tree
  cases hplan : plan setting tree config batch file with
  | error error =>
    have houtcome : outcome = ⟨.ofError error, tree, terminal⟩ := by
      simp only [outcome, run, hplan]
    refine ⟨[], text, text, hnode, ?_, .inr ⟨error, rfl, rfl, ?_⟩, .done text, fun hne => ?_⟩
    · rw [houtcome]
      exact hnode
    · rw [houtcome]
      rfl
    · exact absurd rfl hne
  | ok planned =>
    obtain ⟨loaded, files⟩ := planned
    obtain ⟨rfl, hplanned⟩ := planned_of_plan hload hplan
    obtain ⟨htree, hresult⟩ := run_of_plan hplan terminal verbose dryRun noInteractive
    obtain ⟨hfront, hall⟩ := Run.migrateFrom_paths (interactionOf setting verbose noInteractive)
      options loaded.steps ⟨tree, ⟨⟨[]⟩, terminal⟩⟩ 0 files.length files
    have hagrees := Run.migrateFrom_agrees (interactionOf setting verbose noInteractive) options
      loaded.steps ⟨tree, ⟨⟨[]⟩, terminal⟩⟩ 0 files.length files
    obtain ⟨edited, hafter, hrewrites⟩ := Run.migrateFrom_rewrites
      (interactionOf setting verbose noInteractive) options loaded.steps 0 files.length files
      ⟨tree, ⟨⟨[]⟩, terminal⟩⟩ (nodeAt?_of_node? hnode) hbeside
    refine ⟨_, text, edited, hnode, ?_, .inl ⟨files, rfl, ?_⟩, hrewrites, fun hne => ?_⟩
    · rw [htree, hagrees.node?_of_file hname hnode]
      exact hafter
    · rw [hresult]
      split
      next hpanic => exact .inr ⟨hfront, any_eq_true.mp hpanic, rfl⟩
      next hcalm => exact .inl ⟨hall (by simpa using hcalm), rfl⟩
    · obtain ⟨result, hmem, hreports⟩ := hrewrites.reports hne
      exact ⟨result, hmem, hplanned _ (hfront.subset (mem_map_of_mem hmem)), hreports⟩

/-- A project that holds the configuration to start from, and nothing else. -/
def freshProject : FileTree :=
  (run nowhere ⟨[], []⟩ default (.init defaultConfig "default")).tree

/-- A dry run of the configuration to start from leaves it as it was. -/
theorem run_configuration_dry :
    (∃ configuration, Configuration.load nowhere.environment freshProject defaultConfig =
      .ok configuration) ∧
    (run nowhere freshProject default (.migrate defaultConfig false true true none none)).tree.node?
      defaultConfig = freshProject.node? defaultConfig := by
  have hpath : nowhere.environment.expandPath (trimString defaultConfig) = defaultConfig := by
    decide +kernel
  have hloaded :
      (Configuration.load nowhere.environment freshProject defaultConfig).isOk = true := by
    decide +kernel
  cases hload : Configuration.load nowhere.environment freshProject defaultConfig with
  | error error =>
    rw [hload] at hloaded
    cases hloaded
  | ok configuration =>
    refine ⟨⟨configuration, rfl⟩, ?_⟩
    obtain ⟨results, text, edited, hbefore, hafter, -, -, hreported⟩ :=
      run_configuration nowhere freshProject default defaultConfig false true true none none hload
    rw [hpath] at hbefore hafter
    have hsame : edited = text := by
      refine Classical.byContradiction fun hne => ?_
      obtain ⟨result, -, -, hdry, -⟩ := hreported hne
      cases hdry
    rw [hbefore, hafter, hsame]

/-- The configuration to start from lists itself and holds the word that it replaces: a run by it
writes another one. -/
theorem run_edits_configuration :
    (Configuration.load nowhere.environment freshProject defaultConfig).isOk = true ∧
    (run nowhere freshProject default
      (.migrate defaultConfig false false true none none)).tree.node? defaultConfig ≠
        freshProject.node? defaultConfig := by
  decide +kernel

end Command

end Restyle
