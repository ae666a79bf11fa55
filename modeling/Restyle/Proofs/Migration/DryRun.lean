import Restyle.Interaction.Script
import Restyle.Proofs.Migration.InPlace

/-!
# Dry runs

A dry run foretells the run that writes (`Run.migrateFiles_dryRun`): the results are the same, and
so is the session at the end, with the answers and with all that was asked and told. It needs that
no file is written for another, that nothing stands beside a file, and that the file can be written.
Without the last, a file whose name is nearly as long as names can be is migrated by a dry run and
not by one that writes (`Run.migrateFiles_dryRun_longName`).
-/

namespace Restyle

open FileTree Interaction List Route

namespace Run

variable {σ : Type} {interaction : Interaction σ} {options : RunOptions}
  {steps : List MigrationStep} {progress : Option Progress} {path : String} {count : Nat}

/-- A file that can be written is processed in a dry run as in another, but gets no new text. -/
theorem process_dryRun {loaded : Except Error Text} {session : Session σ}
    (h : ∀ text, loaded = .ok text → writeFault? path "write migrated file" = none) :
    let (done, after) :=
      process interaction { options with dryRun := false } steps progress path loaded session
    process interaction { options with dryRun := true } steps progress path loaded session =
      (⟨done.result, none⟩, after) := by
  cases loaded with
  | error error => rfl
  | ok text =>
    have hcontext : context interaction { options with dryRun := true } progress path =
      context interaction { options with dryRun := false } progress path := rfl
    simp only [process, hcontext]
    rcases (Migration.applySteps interaction
      (context interaction { options with dryRun := false } progress path) path steps
      text).run.run session with ⟨outcome, after⟩
    rcases outcome with (error | _) | resolution
    · rfl
    · rfl
    · simp only [conclude, h text rfl, Bool.or_true, Bool.or_false, if_true]
      split <;> rfl

/-- The files of a dry run are processed as those of another, but get no new texts. -/
theorem processFrom_dryRun {tree : FileTree} {index total : Nat} {paths : List String}
    {session : Session σ} (h : ∀ path ∈ paths, tree.isFile path →
      writeFault? path "write migrated file" = none) :
    let (done, after) := processFrom interaction { options with dryRun := false } steps tree index
      total paths session
    processFrom interaction { options with dryRun := true } steps tree index total paths session =
      (done.map fun one => ⟨one.result, none⟩, after) := by
  induction paths generalizing index session with
  | nil => rfl
  | cons first rest ih =>
    rw [forall_mem_cons] at h
    have hfirst : ∀ text, tree.load first "read source file" = .ok text →
        writeFault? first "write migrated file" = none :=
      fun text hload => h.1 (isFile_of_load hload)
    simp only [processFrom, process_dryRun hfirst]
    split
    · rfl
    · simp only [ih h.2, map_cons]

/-- A dry run foretells the run that writes. For every tree, everyone who answers, all steps and all
paths that lead to different files, beside which nothing stands and which can be written, both have
the same results and end in the same session: with the same answers, and with whoever was asked and
told in the same state, also if they note every question and every line. The dry run leaves the tree
as it was; the other keeps its shape and changes only files at the paths. -/
theorem migrateFiles_dryRun (interaction : Interaction σ) (options : RunOptions)
    (steps : List MigrationStep) (paths : List String) (run : Run σ)
    (hapart : run.tree.LeadApart paths) (hfree : ∀ path ∈ paths, run.tree.FreeBeside path)
    (hwrites : ∀ path ∈ paths, run.tree.isFile path = true → ∀ content : Text,
      (run.tree.writeAtomic path content "write migrated file").1 = .ok ()) :
    let dry := run.migrateFiles interaction { options with dryRun := true } steps paths
    let real := run.migrateFiles interaction { options with dryRun := false } steps paths
    dry.1 = real.1 ∧ dry.2.session = real.2.session ∧ dry.2.tree = run.tree ∧
    real.2.tree.shape = run.tree.shape ∧
    ∀ location, real.2.tree.nodeAt? location ≠ run.tree.nodeAt? location →
      ∃ path ∈ paths, run.tree.isFile path = true ∧
        location = run.tree.destination (ofString path) := by
  have hfault : ∀ path ∈ paths, run.tree.isFile path = true →
      writeFault? path "write migrated file" = none := by
    intro path hmem hfile
    have hwrite := hwrites path hmem hfile []
    rw [writeAtomic_of_free hfile (hfree path hmem)] at hwrite
    cases hfault : writeFault? path "write migrated file" with
    | none => rfl
    | some error =>
      rw [hfault] at hwrite
      cases hwrite
  have hnone : ∀ done : List Processed,
      writes run.tree (done.map fun one => ⟨one.result, none⟩) = [] := by
    intro done
    rw [writes, filterMap_map, filterMap_eq_nil_iff]
    exact fun _ _ => rfl
  intro dry real
  have hdry : dry = _ :=
    migrateFiles_eq interaction { options with dryRun := true } steps hfree hapart
  have hreal : real = _ :=
    migrateFiles_eq interaction { options with dryRun := false } steps hfree hapart
  rw [processFrom_dryRun hfault] at hdry
  rw [hdry, hreal]
  refine ⟨?_, rfl, ?_, shape_overwriteAll _ _, ?_⟩
  · simp only [map_map]
    rfl
  · simp only [hnone]
    rfl
  · intro location hchanged
    -- Where no new text is put, the tree is as it was.
    refine Classical.byContradiction fun hnowhere => ?_
    refine hchanged (nodeAt?_overwriteAll _ _ fun write hwrite hlocation => hnowhere ?_)
    obtain ⟨path, hmem, hfile, hplace⟩ := isFile_of_mem_writes hwrite
    exact ⟨path, hmem, hfile, hlocation.trans hplace⟩

/-- A run on two files, in which everything that is told is noted. -/
def wordPair : Run Script :=
  ⟨⟨[(["a.css"], .file (utf8 "old")), (["b.css"], .file (utf8 "old old"))], []⟩, ⟨{}, {}⟩⟩

/-- The dry run and the other write the same two lines in the log; one changes nothing, the other
both files. -/
theorem migrateFiles_dryRun_wordPair :
    let dry := wordPair.migrateFiles (Script.interaction true) ⟨true, true⟩ [wordStep]
      ["a.css", "b.css"]
    let real := wordPair.migrateFiles (Script.interaction true) ⟨false, true⟩ [wordStep]
      ["a.css", "b.css"]
    dry.2.session.state.lines.length = 2 ∧
    dry.2.session.state.lines = real.2.session.state.lines ∧ dry.2.tree = wordPair.tree ∧
    real.2.tree.node? "a.css" = some (.file (utf8 "new")) ∧
    real.2.tree.node? "b.css" = some (.file (utf8 "new new")) := by
  obtain ⟨-, hsession, htree, -, -⟩ := migrateFiles_dryRun (Script.interaction true) ⟨false, true⟩
    [wordStep] ["a.css", "b.css"] wordPair (by decide) (by decide)
    (forall_mem_cons.mpr ⟨fun _ _ => rfl, forall_mem_singleton.mpr fun _ _ => rfl⟩)
  simp only at hsession htree
  refine ⟨by decide +kernel, ?_, htree, by decide +kernel, by decide +kernel⟩
  rw [hsession]

/-! ## Names that are too long -/

theorem pieces_of_not_mem {chars : List Char} (h : '/' ∉ chars) :
    pieces chars = [chars] := by
  induction chars with
  | nil => rfl
  | cons char rest ih =>
    rw [mem_cons, not_or] at h
    have hchar : (char == '/') = false := beq_false_of_ne (Ne.symm h.1)
    rw [pieces, hchar, ih h.2]
    rfl

/-- Letters none of which is a slash, the first no dot, are a path of one name. -/
theorem route_of_not_mem {first : Char} {rest : List Char} (hdot : first ≠ '.')
    (hslash : '/' ∉ first :: rest) : ofString (String.ofList (first :: rest)) =
      ⟨false, [.name (String.ofList (first :: rest))], .nothing⟩ := by
  have hfirst : first ≠ '/' := fun h => hslash (h ▸ mem_cons_self)
  unfold ofString
  simp [String.toList_ofList, pieces_of_not_mem hslash, isVoid, hdot, stepOf, endingOf, hfirst]

/-- A name of so many letters and one more. -/
def letters (count : Nat) : String :=
  String.ofList ('a' :: replicate count 'a')

theorem eq_of_mem_letters {char : Char} (h : char ∈ 'a' :: replicate count 'a') :
    char = 'a' := by
  rcases mem_cons.mp h with rfl | hrest
  · rfl
  · exact eq_of_mem_replicate hrest

theorem utf8ByteSize_letters (count : Nat) : (letters count).utf8ByteSize = count + 1 := by
  unfold letters
  induction count with
  | zero => rfl
  | succ count ih =>
    rw [replicate_succ, String.ofList_cons, String.utf8ByteSize_append, ih, Nat.add_comm]
    rfl

theorem route_letters (count : Nat) :
    ofString (letters count) = ⟨false, [.name (letters count)], .nothing⟩ :=
  route_of_not_mem (by decide) fun h => absurd (eq_of_mem_letters h) (by decide)

/-- A run on one file, in a directory with nothing else. -/
def alone (next : String) : Run Unit :=
  ⟨⟨[([next], .file (utf8 "old"))], []⟩, Session.silent⟩

/-- The path leads to the file. -/
theorem leads_letters (h : count < longestName) :
    (alone (letters count)).tree.Leads (ofString (letters count)) [] (letters count) := by
  rw [route_letters]
  refine ⟨rfl, ⟨[], rfl, rfl⟩, ?_, ?_⟩
  · have hnul : '\x00' ∉ 'a' :: replicate count 'a' :=
      fun hmem => absurd (eq_of_mem_letters hmem) (by decide)
    simpa only [any_cons, any_nil, Bool.or_false, hasNul, letters,
      String.toList_ofList, contains_eq_mem, decide_eq_false_iff_not] using hnul
  · rw [utf8ByteSize_letters]
    exact h

/-- The word is replaced in the file, whatever its path, unless it cannot be written. -/
theorem process_word (progress : Option Progress) (path : String) (dryRun : Bool) :
    (process silent ⟨dryRun, false⟩ [wordStep] progress path (.ok (utf8 "old"))
      Session.silent).1.result.isSuccess =
      (dryRun || (writeFault? path "write migrated file").isNone) := by
  have hsteps : (Migration.applySteps silent
      (context silent ⟨dryRun, false⟩ progress path) path [wordStep]
      (utf8 "old")).run.run Session.silent =
      (.ok ⟨utf8 "new", [⟨utf8 "old", utf8 "new", 1⟩]⟩, Session.silent) := rfl
  simp only [process, conclude, hsteps]
  cases dryRun with
  | true => rfl
  | false => cases writeFault? path "write migrated file" <;> rfl

/-- Where there is no room for `.tmp` behind the name of a file, it is migrated if the run is dry
and fails otherwise. -/
theorem migrateFiles_letters (hname : count < longestName)
    (hroom : longestName < count + 5) (dryRun : Bool) :
    (alone (letters count)).tree.FreeBeside (letters count) ∧
    ((alone (letters count)).migrateFiles silent ⟨dryRun, false⟩ [wordStep]
      [letters count]).1.map FileResult.isSuccess = [dryRun] := by
  have hleads := leads_letters hname
  have hnode : (alone (letters count)).tree.nodeAt? [letters count] =
      some (.file (utf8 "old")) := by
    simp [alone, nodeAt?]
  have hload : (alone (letters count)).tree.load (letters count) "read source file" =
      .ok (utf8 "old") := by
    unfold load FileTree.read
    rw [hleads.locate, nil_append, placeAt, hnode]
    rfl
  have hfree : (alone (letters count)).tree.FreeBeside (letters count) := by
    intro hfile
    rw [hleads.destination]
    simp [alone, nodeAt?, beside, (scratch_ne (letters count)).symm]
  have hfault : (writeFault? (letters count) "write migrated file").isNone = false := by
    have hlong : longestName < (letters count ++ ".tmp").utf8ByteSize := by
      rw [utf8ByteSize_scratch, utf8ByteSize_letters]
      exact hroom
    unfold writeFault?
    simp only [route_letters, fileName?, getLast?_singleton, if_pos hlong]
    rfl
  refine ⟨hfree, ?_⟩
  rw [migrateFiles_eq silent ⟨dryRun, false⟩ [wordStep] (by simpa using hfree)
    (pairwise_singleton _ _)]
  simp only [processFrom_single, hload, map_singleton]
  rw [show (alone (letters count)).session = Session.silent from rfl, process_word, hfault,
    Bool.or_false]

/-- A dry run does not foretell every run: it migrates a file that stands alone in its directory,
and the run that writes fails for the length of the name. -/
theorem migrateFiles_dryRun_longName :
    (alone (letters 251)).tree.LeadApart [letters 251] ∧
    (alone (letters 251)).tree.FreeBeside (letters 251) ∧
    ((alone (letters 251)).migrateFiles Interaction.silent ⟨true, false⟩ [wordStep]
      [letters 251]).1.map FileResult.isSuccess = [true] ∧
    ((alone (letters 251)).migrateFiles Interaction.silent ⟨false, false⟩ [wordStep]
      [letters 251]).1.map FileResult.isSuccess = [false] := by
  obtain ⟨hfree, hdry⟩ := migrateFiles_letters (by decide : 251 < longestName)
    (by decide) true
  obtain ⟨-, hreal⟩ := migrateFiles_letters (by decide : 251 < longestName) (by decide)
    false
  exact ⟨pairwise_singleton _ _, hfree, hdry, hreal⟩

end Run

end Restyle
