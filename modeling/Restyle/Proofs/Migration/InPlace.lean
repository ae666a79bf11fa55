import Restyle.Proofs.File.Shape
import Restyle.Proofs.Migration.Files

/-!
# Runs that write in place

Where nothing stands beside the files of a run, a file is written in place or not at all, and what
becomes of it depends on what is loaded and on the session only. `Run.process` says what that is. A
run on paths that lead to different files is then the processing of what the first tree has at each
of them, with the new contents put in place at the end (`Run.migrateFrom_eq`).
-/

namespace Restyle

open FileTree List Route

namespace FileTree

variable (tree : FileTree) (writes : List (Location × Text)) (paths : List String)

/-- The tree with other contents, one after the other. -/
def overwriteAll : FileTree :=
  writes.foldl overwrite tree

theorem shape_overwriteAll : (tree.overwriteAll writes).shape = tree.shape := by
  induction writes generalizing tree with
  | nil => rfl
  | cons write writes ih => exact (ih (tree.overwrite write)).trans (tree.shape_overwrite write)

theorem nodeAt?_overwriteAll {location : Location} (h : ∀ write ∈ writes, location ≠ write.1) :
    (tree.overwriteAll writes).nodeAt? location = tree.nodeAt? location := by
  induction writes generalizing tree with
  | nil => rfl
  | cons write writes ih =>
    rw [forall_mem_cons] at h
    exact (ih (tree.overwrite write) h.2).trans (tree.nodeAt?_overwrite write h.1)

theorem overwriteAll_append (first second : List (Location × Text)) :
    tree.overwriteAll (first ++ second) = (tree.overwriteAll first).overwriteAll second :=
  foldl_append

/-- Paths of which those that lead to files lead to different ones. -/
def LeadApart : Prop :=
  paths.Pairwise fun first second => tree.isFile first → tree.isFile second →
    tree.destination (ofString first) ≠ tree.destination (ofString second)

instance : Decidable (tree.LeadApart paths) :=
  inferInstanceAs (Decidable (paths.Pairwise _))

/-- Nothing stands beside a file in any tree of the shape. -/
theorem FreeBeside.congr {tree other : FileTree} {path : String} (h : tree.FreeBeside path)
    (hshape : tree.shape = other.shape) : other.FreeBeside path := by
  intro hfile
  rw [← destination_congr hshape, ← nodeAt?_eq_none_congr hshape]
  exact h (by rw [isFile_congr hshape, hfile])

theorem isFile_of_load {tree : FileTree} {path operation : String} {text : Text}
    (h : tree.load path operation = .ok text) : tree.isFile path := by
  rw [isFile, node?_of_load h]

end FileTree

namespace Run

variable {σ : Type} (interaction : Interaction σ) (options : RunOptions)
  (steps : List MigrationStep) (progress : Option Progress) (path : String) {paths : List String}
  {tree : FileTree}

/-- What becomes of a file: its result, and the text to be put in its place, if there is one. -/
structure Processed where
  result : FileResult
  text? : Option Text

/-- A file that fails, which is logged. -/
def reject (error : Error) (session : Session σ) : Processed × Session σ :=
  (⟨⟨path, .error (.error error)⟩, none⟩, session.hear interaction [failLine path error])

/-- What becomes of a file after its steps, given that nothing stands beside it. -/
def conclude (outcome : Except Halt Resolution) (session : Session σ) : Processed × Session σ :=
  match outcome with
  | .error .panic => (⟨⟨path, .error .panic⟩, none⟩, session)
  | .error (.error error) => reject interaction path error session
  | .ok resolution =>
    let success : FileResult := ⟨path, .ok resolution.changes⟩
    if resolution.changes.isEmpty || options.dryRun then (⟨success, none⟩, session)
    else match writeFault? path "write migrated file" with
      | some error => reject interaction path error session
      | none => (⟨success, some resolution.data⟩, session)

/-- What becomes of a file, given what was loaded and that nothing stands beside it. -/
def process (loaded : Except Error Text) (session : Session σ) : Processed × Session σ :=
  match loaded with
  | .error error => reject interaction path error session
  | .ok text =>
    let reached := (Migration.applySteps interaction (context interaction options progress path)
      path steps text).run.run session
    conclude interaction options path reached.1 reached.2

/-- What is concluded of a file depends on the outcome of its steps, and all it does to the session
is to log. -/
theorem exists_concluded (outcome : Except Halt Resolution) :
    ∃ done lines, done.result.path = path ∧
      ∀ session, conclude interaction options path outcome session =
        (done, session.hear interaction lines) := by
  unfold conclude
  split
  · exact ⟨_, [], rfl, fun _ => rfl⟩
  · exact ⟨_, _, rfl, fun _ => rfl⟩
  · split
    · exact ⟨_, [], rfl, fun _ => rfl⟩
    · split
      · exact ⟨_, _, rfl, fun _ => rfl⟩
      · exact ⟨_, [], rfl, fun _ => rfl⟩

theorem process_path (loaded : Except Error Text) (session : Session σ) :
    (process interaction options steps progress path loaded session).1.result.path = path := by
  cases loaded with
  | error error => rfl
  | ok text =>
    obtain ⟨done, lines, hpath, hdone⟩ := exists_concluded interaction options path
      ((Migration.applySteps interaction (context interaction options progress path) path steps
        text).run.run session).1
    simp only [process, hdone]
    exact hpath

/-- The place of a new text. -/
def Processed.write? (tree : FileTree) (done : Processed) : Option (Location × Text) :=
  done.text?.map fun text => (tree.destination (ofString done.result.path), text)

variable {interaction options steps progress path}

/-- Only a file gets a new text, in its place. -/
theorem isFile_of_write {session : Session σ} {write : Location × Text}
    (h : (process interaction options steps progress path (tree.load path "read source file")
      session).1.write? tree = some write) :
    tree.isFile path ∧ write.1 = tree.destination (ofString path) := by
  obtain ⟨text, htext, rfl⟩ := Option.map_eq_some_iff.mp h
  rw [process_path]
  cases hload : tree.load path "read source file" with
  | error error =>
    rw [hload] at htext
    cases htext
  | ok loaded => exact ⟨isFile_of_load hload, rfl⟩

variable (interaction options steps progress)

/-- A file beside which nothing stands is migrated by processing what is loaded. -/
theorem migrateFile_eq (run : Run σ) (hfree : run.tree.FreeBeside path) :
    let (done, session) := process interaction options steps progress path
      (run.tree.load path "read source file") run.session
    run.migrateFile interaction options steps progress path =
      (done.result, ⟨run.tree.overwriteAll (done.write? run.tree).toList, session⟩) := by
  have hends := migrateFile_ends interaction options steps progress path run
  revert hends
  generalize run.migrateFile interaction options steps progress path = migrated
  obtain ⟨result, after⟩ := migrated
  intro hends
  cases hends with
  | unread hload =>
    rw [hload]
    rfl
  | broken hload hsteps | panicked hload hsteps =>
    rw [hload]
    simp only [process, conclude, hsteps]
    rfl
  | kept hload hsteps hkept =>
    rw [hload]
    simp only [process, conclude, hsteps]
    rw [if_pos (by simpa using hkept)]
    rfl
  | written hload hsteps hchanges hdry hmoved =>
    rw [writeAtomic_of_free (isFile_of_load hload) hfree] at hmoved
    rw [hload]
    simp only [process, conclude, hsteps]
    rw [if_neg (by simp [hchanges, hdry])]
    cases hfault : writeFault? path "write migrated file" with
    | some error =>
      rw [hfault] at hmoved
      cases hmoved
    | none =>
      rw [hfault] at hmoved
      cases hmoved
      rfl
  | unwritten hload hsteps hchanges hdry hfailed =>
    rw [writeAtomic_of_free (isFile_of_load hload) hfree] at hfailed
    rw [hload]
    simp only [process, conclude, hsteps]
    rw [if_neg (by simp [hchanges, hdry])]
    cases hfault : writeFault? path "write migrated file" with
    | some error =>
      rw [hfault] at hfailed
      cases hfailed
      rfl
    | none =>
      rw [hfault] at hfailed
      cases hfailed

/-- What becomes of the files at the paths, as a tree has them, up to one that the run ends in. -/
def processFrom (tree : FileTree) (index total : Nat) :
    List String → Session σ → List Processed × Session σ
  | [], session => ([], session)
  | path :: rest, session =>
    let (done, session) := process interaction options steps
      (some (progressAt index total path)) path (tree.load path "read source file") session
    if done.result.isPanic then ([done], session)
    else
      let (others, session) := processFrom tree (index + 1) total rest session
      (done :: others, session)

variable {interaction options steps} {index total : Nat} {session : Session σ}

theorem processFrom_single :
    (processFrom interaction options steps tree index total [path] session).1 =
      [(process interaction options steps (some (progressAt index total path)) path
        (tree.load path "read source file") session).1] := by
  simp only [processFrom]
  split <;> rfl

/-- The places of the new texts. -/
def writes (tree : FileTree) (done : List Processed) : List (Location × Text) :=
  done.filterMap (Processed.write? tree)

theorem writes_cons (tree : FileTree) (done : Processed) (others : List Processed) :
    writes tree (done :: others) = (done.write? tree).toList ++ writes tree others := by
  unfold writes
  rw [filterMap_cons]
  cases done.write? tree <;> rfl

/-- A new text is put in the place of a file. -/
theorem isFile_of_mem_writes {write : Location × Text} (h : write ∈ writes tree
      (processFrom interaction options steps tree index total paths session).1) :
    ∃ path ∈ paths, tree.isFile path ∧ write.1 = tree.destination (ofString path) := by
  induction paths generalizing index session with
  | nil => cases h
  | cons first rest ih =>
    simp only [writes, processFrom, mem_filterMap] at h
    obtain ⟨done, hdone, hwrite⟩ := h
    have hfirst : done = (process interaction options steps (some (progressAt index total first))
        first (tree.load first "read source file") session).1 →
        ∃ path ∈ first :: rest, tree.isFile path ∧ write.1 = tree.destination (ofString path) := by
      rintro rfl
      exact ⟨first, mem_cons_self, isFile_of_write hwrite⟩
    split at hdone
    · exact hfirst (mem_singleton.mp hdone)
    · rcases mem_cons.mp hdone with hdone | hdone
      · exact hfirst hdone
      · obtain ⟨path, hmem, hplace⟩ := ih (mem_filterMap.mpr ⟨done, hdone, hwrite⟩)
        exact ⟨path, mem_cons_of_mem _ hmem, hplace⟩

variable (interaction options steps)

/-- A run processes the files as the first tree has them and puts the new texts in their places. The
tree at hand may be one that earlier files of the run were written to: it has the shape of the first
tree and, at the paths to come, its files. -/
theorem migrateFrom_eq {other : FileTree} (index total : Nat) (session : Session σ)
    (hshape : tree.shape = other.shape)
    (hsame : ∀ path ∈ paths, tree.isFile path →
      tree.nodeAt? (tree.destination (ofString path)) =
        other.nodeAt? (tree.destination (ofString path)))
    (hfree : ∀ path ∈ paths, tree.FreeBeside path) (hapart : tree.LeadApart paths) :
    let (done, after) := processFrom interaction options steps tree index total paths session
    migrateFrom interaction options steps index total paths ⟨other, session⟩ =
      (done.map Processed.result, ⟨other.overwriteAll (writes tree done), after⟩) := by
  induction paths generalizing index session other with
  | nil => rfl
  | cons first rest ih =>
    rw [forall_mem_cons] at hsame hfree
    obtain ⟨hfirst, hrest⟩ := pairwise_cons.mp hapart
    have hload : tree.load first "read source file" = other.load first "read source file" :=
      load_congr hshape hsame.1 _
    have hmigrated := migrateFile_eq interaction options steps
      (some (progressAt index total first)) ⟨other, session⟩ (hfree.1.congr hshape)
    simp only [← hload] at hmigrated
    simp only [processFrom, migrateFrom, hmigrated]
    generalize hprocess : process interaction options steps (some (progressAt index total first))
      first (tree.load first "read source file") session = processed
    obtain ⟨done, middle⟩ := processed
    have hwrite : done.write? other = done.write? tree := by
      rw [Processed.write?, Processed.write?, destination_congr hshape]
    simp only [hwrite]
    have hwritten : ∀ path ∈ rest, tree.isFile path →
        tree.nodeAt? (tree.destination (ofString path)) =
          (other.overwriteAll (done.write? tree).toList).nodeAt?
            (tree.destination (ofString path)) := by
      intro path hmem hfile
      rw [nodeAt?_overwriteAll, hsame.2 path hmem hfile]
      -- The first file is written nowhere but in its place, where no later path leads.
      intro write hfound
      have hplace : (process interaction options steps (some (progressAt index total first))
          first (tree.load first "read source file") session).1.write? tree = some write := by
        rw [hprocess]
        exact Option.mem_toList.mp hfound
      obtain ⟨hfirstFile, hlocation⟩ := isFile_of_write hplace
      rw [hlocation]
      exact (hfirst path hmem hfirstFile hfile).symm
    have hlater := ih (index + 1) middle
      (hshape.trans (other.shape_overwriteAll (done.write? tree).toList).symm) hwritten hfree.2
      hrest
    cases done.result.isPanic with
    | true =>
      simp only [if_true, map_singleton, writes_cons]
      simp [writes]
    | false =>
      simp only [Bool.false_eq_true, if_false, hlater, map_cons, writes_cons, overwriteAll_append]

/-- A whole run processes the files as the tree has them and puts the new texts in their places. -/
theorem migrateFiles_eq {run : Run σ} (hfree : ∀ path ∈ paths, run.tree.FreeBeside path)
    (hapart : run.tree.LeadApart paths) :
    let processed := processFrom interaction options steps run.tree 0 paths.length paths run.session
    run.migrateFiles interaction options steps paths = (processed.1.map Processed.result,
      ⟨run.tree.overwriteAll (writes run.tree processed.1), processed.2⟩) :=
  migrateFrom_eq interaction options steps 0 paths.length run.session rfl (fun _ _ _ => rfl) hfree
    hapart

end Run

end Restyle
