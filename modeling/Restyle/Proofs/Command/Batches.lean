import Mathlib.Algebra.Group.Nat.Defs
import Mathlib.Data.List.Pairwise
import Restyle.Command
import Restyle.Proofs.Batch
import Restyle.Proofs.File.Discovery
import Restyle.Proofs.Migration.Unasked

/-!
# Migrating in batches

The files of a project may be migrated in batches, in any order, one command for each. Where no
question is asked this comes to the same as one command for all of them
(`Command.runBatches_compose`): every batch finds the project in the shape it had, its own files and
the configuration as they were, and so makes of each file what the whole run makes of it.
-/

namespace Restyle

open Batch Configuration List Route Run

/-- Other contents of different files may be written in any order. -/
theorem FileTree.overwriteAll_perm (tree : FileTree) {writes others : List (Location × Text)}
    (hperm : writes.Perm others) (hapart : writes.Pairwise fun first second => first.1 ≠ second.1) :
    tree.overwriteAll writes = tree.overwriteAll others := by
  have : Std.Symm fun first second : Location × Text => first.1 ≠ second.1 := ⟨fun _ _ => Ne.symm⟩
  refine hperm.foldl_eq' (fun first hfirst second hsecond middle => ?_) tree
  by_cases hsame : first = second
  · rw [hsame]
  · exact middle.overwrite_comm (hapart.forall hfirst hsecond hsame)

theorem FileTree.LeadApart.perm {tree : FileTree} {paths others : List String}
    (h : tree.LeadApart paths) (hperm : others.Perm paths) : tree.LeadApart others :=
  (hperm.pairwise_iff fun hne hsecond hfirst => (hne hfirst hsecond).symm).mpr h

namespace Command

variable {setting : Setting} {tree other : FileTree} {config : String}
  {verbose dryRun noInteractive : Bool} {configuration : Configuration} {files : List String}

/-- The plan for a project depends on its shape and on the configuration. -/
theorem plan_congr (hshape : tree.shape = other.shape)
    (hconfig : tree.nodeAt? (location setting.environment tree config) =
      other.nodeAt? (location setting.environment tree config))
    (batch : Option String) : plan setting tree config batch none =
      plan setting other config batch none := by
  unfold plan allFiles
  rw [load_congr hshape setting.environment config hconfig]
  simp only [Discovery.files_congr hshape]

/-- A plan for all files of a project has those that are discovered by the configuration. -/
theorem plan_ok (h : plan setting tree config none none = .ok (configuration, files)) :
    load setting.environment tree config = .ok configuration ∧
      Discovery.files tree "" configuration.includes configuration.excludes = .ok files := by
  obtain ⟨loaded, hload, h⟩ := bind_eq_ok_iff.mp h
  obtain ⟨all, hfiles, h⟩ := bind_eq_ok_iff.mp h
  obtain ⟨rfl, rfl⟩ := Prod.mk.inj (Except.ok.inj h)
  exact ⟨hload, hfiles⟩

/-- The plan for a batch has that part of the files. -/
theorem plan_of_all (h : plan setting tree config none none = .ok (configuration, files))
    (batch : Option String) :
    plan setting tree config batch none =
      (inBatch files batch).map fun window => (configuration, window) := by
  obtain ⟨hload, hfiles⟩ := plan_ok h
  unfold plan allFiles
  simp only [bind, Except.bind, hload, hfiles]
  cases inBatch files batch <;> rfl

/-- The batch of a number is a part of the files. -/
theorem inBatch_argument {size number : Nat} (hpositive : 1 ≤ size) (hsize : size ≤ greatest)
    (hnumber : 1 ≤ number) (hcount : number ≤ Batch.count size files.length)
    (htotal : files.length ≤ greatest) :
    inBatch files (some (argument size number)) = .ok (part size number files) := by
  rw [inBatch, ofArgument_argument hpositive hsize hnumber
    ((start_lt_iff hpositive hnumber).mpr hcount) htotal]
  have hlength : number * size - (number - 1) * size = size := by
    rw [← Nat.sub_mul, Nat.sub_sub_self hnumber, Nat.one_mul]
  have hpart : (files.take (min (number * size) files.length)).drop ((number - 1) * size) =
      part size number files := by
    rw [← take_eq_take_min, drop_take, hlength, part]
  exact congrArg Except.ok hpart

/-- How a command asks and logs. -/
abbrev interactionOf (setting : Setting) (verbose noInteractive : Bool) : Interaction Terminal :=
  Terminal.interaction (!noInteractive && setting.canPrompt) verbose

/-- A command with `--no-interactive`, or with nobody there, does not ask. -/
theorem quiet_of (hquiet : noInteractive ∨ setting.canPrompt = false) :
    (!noInteractive && (interactionOf setting verbose noInteractive).isInteractive) = false := by
  rcases hquiet with hquiet | hquiet <;> simp [interactionOf, Terminal.interaction, hquiet]

/-- A project that is migrated without questions: the plan for it, what becomes of each file, and
that no file is written for another or for the configuration. -/
structure Judged (setting : Setting) (tree : FileTree) (config : String)
    (verbose dryRun noInteractive : Bool) (configuration : Configuration) (files : List String)
    (judge : String → Run.Processed) : Prop where
  plan : plan setting tree config none none = .ok (configuration, files)
  process : ∀ index total paths (session : Session Terminal), session.answers = {} → ∃ lines,
    processFrom (interactionOf setting verbose noInteractive) ⟨dryRun, !noInteractive⟩
      configuration.steps tree index total paths session =
        (upTo judge paths, session.hear (interactionOf setting verbose noInteractive) lines)
  calm : ∀ path ∈ files, (judge path).result.isPanic = false
  write : ∀ path write, (judge path).write? tree = some write →
    tree.isFile path ∧ write.1 = tree.destination (ofString path)
  free : ∀ path ∈ files, tree.FreeBeside path
  config : ∀ path ∈ files, location setting.environment tree config ≠
    tree.destination (ofString path)

/-- Where the new texts of some files are put. -/
def places (tree : FileTree) (judge : String → Run.Processed) (paths : List String) :
    List (Location × Text) :=
  writes tree (paths.map judge)

/-- The batches of a size by their numbers, one command after the other, each on the files that the
one before left and at a terminal of its own. -/
def runBatches (setting : Setting) (config : String) (verbose dryRun noInteractive : Bool)
    (size : Nat) (terminals : Nat → Terminal) : List Nat → FileTree → List Reply × FileTree
  | [], tree => ([], tree)
  | number :: rest, tree =>
    let outcome := run setting tree (terminals number)
      (.migrate config verbose dryRun noInteractive (some (argument size number)) none)
    let (replies, tree) :=
      runBatches setting config verbose dryRun noInteractive size terminals rest outcome.tree
    (outcome.reply :: replies, tree)

namespace Judged

variable {configuration : Configuration} {files : List String} {judge : String → Run.Processed}
  (h : Judged setting tree config verbose dryRun noInteractive configuration files judge)
include h

theorem mem_places {paths : List String} {write : Location × Text}
    (hwrite : write ∈ places tree judge paths) :
    ∃ path ∈ paths, tree.isFile path ∧
      write.1 = tree.destination (ofString path) := by
  simp only [places, writes, mem_filterMap, mem_map] at hwrite
  obtain ⟨-, ⟨path, hmem, rfl⟩, hsome⟩ := hwrite
  exact ⟨path, hmem, h.write path write hsome⟩

theorem places_apart {paths : List String} (hapart : tree.LeadApart paths) :
    (places tree judge paths).Pairwise fun first second => first.1 ≠ second.1 := by
  unfold places writes
  rw [filterMap_map]
  refine List.Pairwise.filterMap _ ?_ hapart
  intro first second hne write hwrite write' hwrite'
  obtain ⟨hfile, hplace⟩ := h.write first write hwrite
  obtain ⟨hfile', hplace'⟩ := h.write second write' hwrite'
  rw [hplace, hplace']
  exact hne hfile hfile'

/-- What a command does for a part of the files when others of them are done: it judges each of them
as the first tree has it, and puts the new texts in their places. -/
theorem run_part {earlier window : List String} (hmem : ∀ path ∈ earlier ++ window, path ∈ files)
    (hapart : tree.LeadApart (earlier ++ window)) {batch : Option String}
    (hwindow : inBatch files batch = .ok window) (terminal : Terminal) :
    let outcome := run setting (tree.overwriteAll (places tree judge earlier)) terminal
      (.migrate config verbose dryRun noInteractive batch none)
    outcome.reply.result = .ok (migrationData dryRun (window.map fun path => (judge path).result)) ∧
    outcome.tree = tree.overwriteAll (places tree judge (earlier ++ window)) := by
  obtain ⟨-, hlater, hbetween⟩ := pairwise_append.mp hapart
  have hshape := (tree.shape_overwriteAll (places tree judge earlier)).symm
  -- The files that are done are not the configuration and not those of the part.
  have hconfig : tree.nodeAt? (location setting.environment tree config) =
      (tree.overwriteAll (places tree judge earlier)).nodeAt?
        (location setting.environment tree config) := by
    refine (tree.nodeAt?_overwriteAll _ fun write hwrite hlocation => ?_).symm
    obtain ⟨path, hpath, -, hplace⟩ := h.mem_places hwrite
    exact h.config path (hmem path (mem_append_left _ hpath)) (hlocation.trans hplace)
  have hsame : ∀ path ∈ window, tree.isFile path →
      tree.nodeAt? (tree.destination (ofString path)) =
        (tree.overwriteAll (places tree judge earlier)).nodeAt?
          (tree.destination (ofString path)) := by
    intro path hpath hfile
    refine (tree.nodeAt?_overwriteAll _ fun write hwrite hlocation => ?_).symm
    obtain ⟨done, hdone, hdoneFile, hplace⟩ := h.mem_places hwrite
    exact hbetween done hdone path hpath hdoneFile hfile (hplace.symm.trans hlocation.symm)
  have hplan : Command.plan setting (tree.overwriteAll (places tree judge earlier)) config batch
      none = .ok (configuration, window) := by
    rw [← plan_congr hshape hconfig, plan_of_all h.plan, hwindow]
    rfl
  have hcalm : ∀ path ∈ window, (judge path).result.isPanic = false := fun path hpath =>
    h.calm path (hmem path (mem_append_right _ hpath))
  obtain ⟨lines, hlines⟩ := h.process 0 window.length window ⟨{}, terminal⟩ rfl
  rw [upTo_eq_map hcalm] at hlines
  have hrun := migrateFrom_eq (interactionOf setting verbose noInteractive)
    ⟨dryRun, !noInteractive⟩ configuration.steps 0 window.length ⟨{}, terminal⟩ hshape hsame
    (fun path hpath => h.free path (hmem path (mem_append_right _ hpath))) hlater
  simp only [hlines] at hrun
  have hfiles : migrateFiles (interactionOf setting verbose noInteractive)
      ⟨dryRun, !noInteractive⟩ configuration.steps window
      ⟨tree.overwriteAll (places tree judge earlier), ⟨⟨[]⟩, terminal⟩⟩ = _ := hrun
  have happend : places tree judge (earlier ++ window) =
      places tree judge earlier ++ writes tree (window.map judge) := by
    rw [places, map_append, writes, filterMap_append]
    rfl
  have hnone : ((window.map judge).map Run.Processed.result).any FileResult.isPanic = false := by
    simpa using hcalm
  simp only [run, hplan, hfiles, hnone, happend, FileTree.overwriteAll_append, and_true,
    Bool.false_eq_true, if_false]
  rw [map_map]
  rfl

/-- What batches do when some files are done: each judges its part of the files, and the new texts
are put in their places. -/
theorem runBatches_eq {size : Nat} (hpositive : 1 ≤ size) (hsize : size ≤ greatest)
    (htotal : files.length ≤ greatest) (terminals : Nat → Terminal) {order : List Nat}
    (hnumbers : ∀ number ∈ order, 1 ≤ number ∧ number ≤ Batch.count size files.length)
    {earlier : List String} (hmem : ∀ path ∈ earlier, path ∈ files)
    (hapart : tree.LeadApart
      (earlier ++ order.flatMap fun number => part size number files)) :
    let batches := runBatches setting config verbose dryRun noInteractive size terminals order
      (tree.overwriteAll (places tree judge earlier))
    batches.1.map Reply.result = order.map (fun number => .ok (migrationData dryRun
      ((part size number files).map fun path => (judge path).result))) ∧
    batches.2 = tree.overwriteAll (places tree judge
      (earlier ++ order.flatMap fun number => part size number files)) := by
  induction order generalizing earlier with
  | nil =>
    refine ⟨rfl, ?_⟩
    rw [flatMap_nil, append_nil]
    rfl
  | cons number rest ih =>
    obtain ⟨hnumber, hrest⟩ := forall_mem_cons.mp hnumbers
    rw [flatMap_cons, ← append_assoc] at hapart
    have hpart : ∀ path ∈ earlier ++ part size number files, path ∈ files := by
      intro path hpath
      rcases mem_append.mp hpath with hpath | hpath
      · exact hmem path hpath
      · exact mem_of_mem_drop (mem_of_mem_take hpath)
    obtain ⟨hreply, htree⟩ := h.run_part hpart (pairwise_append.mp hapart).1
      (inBatch_argument hpositive hsize hnumber.1 hnumber.2 htotal) (terminals number)
    obtain ⟨hreplies, hfinal⟩ := ih hrest hpart hapart
    simp only [runBatches, htree, map_cons, hreply, hreplies, flatMap_cons, true_and]
    rw [hfinal, append_assoc]

end Judged

/-- A project that is migrated without questions is judged file by file, if the migration
returns. -/
theorem exists_judged (hquiet : noInteractive ∨ setting.canPrompt = false)
    (hplan : plan setting tree config none none = .ok (configuration, files))
    (hfree : ∀ path ∈ files, tree.FreeBeside path) (hapart : tree.LeadApart files)
    (hconfig : ∀ path ∈ files, location setting.environment tree config ≠
      tree.destination (ofString path)) {terminal : Terminal}
    (hreturns : (run setting tree terminal
      (.migrate config verbose dryRun noInteractive none none)).reply.result.isOk) :
    ∃ judge, Judged setting tree config verbose dryRun noInteractive configuration files judge ∧
      ∀ path, (judge path).result.path = path := by
  obtain ⟨judge, hjudge⟩ := exists_judge
    (interactionOf setting verbose noInteractive) ⟨dryRun, !noInteractive⟩
    (@quiet_of setting verbose noInteractive hquiet) configuration.steps tree
  have hprocess : ∀ path, judge path = (process (interactionOf setting verbose noInteractive)
      ⟨dryRun, !noInteractive⟩ configuration.steps (some (progressAt 0 1 path)) path
      (tree.load path "read source file") ⟨{}, default⟩).1 := by
    intro path
    obtain ⟨lines, hlines⟩ := hjudge 0 1 [path] ⟨{}, default⟩ rfl
    have hdone := processFrom_single.symm.trans (congrArg Prod.fst hlines)
    unfold upTo at hdone
    split at hdone <;> exact (cons.inj hdone).1.symm
  refine ⟨judge, ⟨hplan, hjudge, isPanic_of_upTo fun done hdone => ?_, ?_, hfree, hconfig⟩, ?_⟩
  · -- A result that panics would be the reply.
    refine Bool.eq_false_iff.mpr fun hpanic => ?_
    obtain ⟨lines, hlines⟩ := hjudge 0 files.length files ⟨{}, terminal⟩ rfl
    have hfiles := @migrateFiles_eq _ (interactionOf setting verbose noInteractive)
      ⟨dryRun, !noInteractive⟩ configuration.steps files ⟨tree, ⟨⟨[]⟩, terminal⟩⟩ hfree hapart
    simp only [hlines] at hfiles
    have hany : ((upTo judge files).map Run.Processed.result).any FileResult.isPanic :=
      any_eq_true.mpr ⟨_, mem_map_of_mem hdone, hpanic⟩
    simp only [run, hplan, hfiles, hany, if_true] at hreturns
    cases hreturns
  · intro path write hwrite
    rw [hprocess] at hwrite
    exact isFile_of_write hwrite
  · intro path
    rw [hprocess]
    exact process_path ..

/-- A project with two files and a configuration that replaces a word in them. -/
def wordProject : FileTree :=
  ⟨[(["t.json"], .file (utf8 ("\x7b\"include\":[\"a.css\",\"b.css\"],\"migrations\":[\x7b"
      ++ "\"name\":\"w\",\"plugin\":\"simple-replace\",\"config\":\x7b\"mappings\":\x7b"
      ++ "\"old\":\"new\"\x7d\x7d\x7d]\x7d"))),
    (["a.css"], .file (utf8 "old")), (["b.css"], .file (utf8 "old old"))], []⟩

/-- Nobody is there, and no variable is set. -/
def nowhere : Setting :=
  ⟨⟨[]⟩, false⟩

theorem plan_wordProject : ∃ configuration,
    plan nowhere wordProject "t.json" none none = .ok (configuration, ["a.css", "b.css"]) := by
  have hfiles : (plan nowhere wordProject "t.json" none none).toOption.map Prod.snd =
      some ["a.css", "b.css"] := by decide +kernel
  cases hplan : plan nowhere wordProject "t.json" none none with
  | error error =>
    rw [hplan] at hfiles
    cases hfiles
  | ok found =>
    rw [hplan] at hfiles
    obtain ⟨configuration, files⟩ := found
    cases hfiles
    exact ⟨configuration, rfl⟩

/-- The files of the project stand apart from one another and from the configuration. -/
theorem wordProject_apart : wordProject.LeadApart ["a.css", "b.css"] ∧
    (∀ path ∈ ["a.css", "b.css"], wordProject.FreeBeside path) ∧
    ∀ path ∈ ["a.css", "b.css"], location nowhere.environment wordProject "t.json" ≠
      wordProject.destination (ofString path) := by
  decide

end Command

end Restyle
