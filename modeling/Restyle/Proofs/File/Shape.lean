import Restyle.Proofs.File.Tree

/-!
# The shape of a file tree

The shape of a tree is the tree with every file emptied. Where a path leads and which names a
directory has depend on the shape only (`FileTree.locate_shape`, `FileTree.names_shape`), and what
is read at a path on nothing more than the shape and the node there (`FileTree.load_congr`). A write
to a file beside which nothing stands keeps the shape: it replaces the content in place, or fails
for the path alone (`FileTree.writeAtomic_of_free`).
-/

namespace Restyle

open List Route

/-- A node without its content. -/
def Node.shape : Node → Node
  | .directory => .directory
  | .file _ => .file []

namespace FileTree

variable (tree : FileTree)

/-- The tree with every file emptied. -/
def shape : FileTree :=
  { tree with entries := tree.entries.map fun entry => (entry.1, entry.2.shape) }

/-- A place without the content of its file. -/
def Place.shape : Place → Place
  | .taken location node => .taken location node.shape
  | .free location => .free location

/-! ## What depends on the shape -/

theorem lookup_shape (location : Location) (entries : List (Location × Node)) :
    (entries.map fun entry => (entry.1, entry.2.shape)).lookup location =
      (entries.lookup location).map Node.shape := by
  induction entries with
  | nil => rfl
  | cons entry entries ih =>
    obtain ⟨key, node⟩ := entry
    rw [map_cons, lookup_cons, lookup_cons, ih]
    split <;> rfl

theorem nodeAt?_shape (location : Location) :
    tree.shape.nodeAt? location = (tree.nodeAt? location).map Node.shape := by
  unfold nodeAt? shape
  split
  · rfl
  · exact lookup_shape location tree.entries

theorem walk_shape (start : Location) (steps : List Route.Step) :
    tree.shape.walk start steps = (tree.walk start steps).map Place.shape := by
  fun_induction walk tree start steps with
  | case1 start node hnode | case2 start hnode | case3 start step rest hnode
  | case4 start step rest content hnode =>
    rw [walk.eq_def, nodeAt?_shape, hnode]
    rfl
  | case5 start rest hnode ih | case6 start rest hnode ih =>
    rw [walk.eq_def, nodeAt?_shape, hnode]
    exact ih
  | case7 start rest hnode next hlong =>
    rw [walk.eq_def, nodeAt?_shape, hnode]
    simp only [Option.map_some, Node.shape, if_pos hlong]
    rfl
  | case8 start rest hnode next hlong htaken ih =>
    rw [walk.eq_def, nodeAt?_shape, hnode]
    simp only [Option.map_some, Node.shape, if_neg hlong, nodeAt?_shape, Option.isSome_map,
      if_pos htaken]
    exact ih
  | case9 start rest hnode next hlong hfree hrest =>
    rw [walk.eq_def, nodeAt?_shape, hnode]
    simp only [Option.map_some, Node.shape, if_neg hlong, nodeAt?_shape, Option.isSome_map,
      if_neg hfree, if_pos hrest]
    rfl
  | case10 start rest hnode next hlong hfree hrest =>
    rw [walk.eq_def, nodeAt?_shape, hnode]
    simp only [Option.map_some, Node.shape, if_neg hlong, nodeAt?_shape, Option.isSome_map,
      if_neg hfree, if_neg hrest]
    rfl

theorem locate_shape (route : Route) :
    tree.shape.locate route = (tree.locate route).map Place.shape := by
  have hstart : tree.shape.start route = tree.start route := rfl
  rw [locate_eq, locate_eq, hstart, walk_shape]
  split
  · rfl
  · split
    · rfl
    · cases tree.walk (tree.start route) (allSteps route) with
      | error fault => rfl
      | ok place =>
        cases place with
        | free location => rfl
        | taken location node =>
          cases node with
          | directory => rfl
          | file content =>
            simp only [Except.map, Place.shape, Node.shape]
            split <;> rfl

theorem destination_shape (route : Route) :
    tree.shape.destination route = tree.destination route :=
  rfl

theorem node?_shape (path : String) :
    tree.shape.node? path = (tree.node? path).map Node.shape := by
  rw [node?, node?, locate_shape]
  cases tree.locate (ofString path) with
  | error fault => rfl
  | ok place => cases place <;> rfl

theorem isFile_shape (path : String) :
    tree.shape.isFile path = tree.isFile path := by
  rw [isFile, isFile, node?_shape]
  cases tree.node? path with
  | none => rfl
  | some node => cases node <;> rfl

theorem names_shape (location : Location) :
    tree.shape.names location = tree.names location := by
  unfold names shape
  rw [filterMap_map]
  rfl

variable {tree} {other : FileTree} {path : String} {location : Location}

theorem destination_congr (h : tree.shape = other.shape) (route : Route) :
    tree.destination route = other.destination route := by
  rw [← destination_shape, h, destination_shape]

theorem nodeAt?_eq_none_congr (h : tree.shape = other.shape) (location : Location) :
    tree.nodeAt? location = none ↔ other.nodeAt? location = none := by
  rw [← Option.map_eq_none_iff (f := Node.shape), ← nodeAt?_shape, h, nodeAt?_shape,
    Option.map_eq_none_iff]

theorem isFile_congr (h : tree.shape = other.shape) (path : String) :
    tree.isFile path = other.isFile path := by
  rw [← isFile_shape, h, isFile_shape]

/-- A route leads to the same in trees of one shape, if a file that it leads to is the same. -/
theorem locate_congr (h : tree.shape = other.shape) {route : Route}
    (hfile : ∀ content, tree.locate route =
      .ok (.taken (tree.destination route) (.file content)) →
      other.nodeAt? (tree.destination route) = some (.file content)) :
    tree.locate route = other.locate route := by
  have hmap : (tree.locate route).map Place.shape = (other.locate route).map Place.shape := by
    rw [← locate_shape, h, locate_shape]
  cases hfirst : tree.locate route with
  | error fault =>
    cases hsecond : other.locate route with
    | error fault' =>
      rw [hfirst, hsecond] at hmap
      exact congrArg Except.error (Except.error.inj hmap)
    | ok place =>
      rw [hfirst, hsecond] at hmap
      cases hmap
  | ok place =>
    cases hsecond : other.locate route with
    | error fault =>
      rw [hfirst, hsecond] at hmap
      cases hmap
    | ok place' =>
      have hlocation : place.location = tree.destination route := locate_location hfirst
      rw [hfirst, hsecond] at hmap
      cases place with
      | free location =>
        cases place' with
        | free location' =>
          cases hmap
          rfl
        | taken location' node' => cases hmap
      | taken location node =>
        cases place' with
        | free location' => cases hmap
        | taken location' node' =>
          obtain ⟨hsame, hnodes⟩ := Place.taken.inj (Except.ok.inj hmap)
          cases node with
          | directory =>
            cases node' with
            | directory => rw [hsame]
            | file content' => cases hnodes
          | file content =>
            -- Both files stand at the destination.
            change location = _ at hlocation
            have hnode' := walk_taken (walk_of_locate hsecond).2.2
            rw [← hsame, hlocation, hfile content (by rw [hfirst, hlocation])] at hnode'
            rw [hsame, Option.some.inj hnode']

/-- What is loaded at a path depends on the shape and on the file there. -/
theorem load_congr (h : tree.shape = other.shape)
    (hnode : tree.isFile path → tree.nodeAt? (tree.destination (ofString path)) =
      other.nodeAt? (tree.destination (ofString path))) (operation : String) :
    tree.load path operation = other.load path operation := by
  unfold load read
  rw [locate_congr h]
  intro content hlocate
  have hfile : tree.isFile path := by
    rw [isFile, node?, hlocate]
  rw [← hnode hfile]
  exact walk_taken (walk_of_locate hlocate).2.2

/-! ## Writing in place -/

/-- A node that was put at a free location and taken away again leaves the tree as it was. -/
theorem erase_insert (h : tree.nodeAt? location = none) (node : Node) :
    (tree.insert location node).erase location = tree := by
  have hlookup : tree.entries.lookup location = none := by
    unfold nodeAt? at h
    split at h
    · cases h
    · exact h
  unfold insert erase
  have hentries : ∀ entries : List (Location × Node), entries.lookup location = none →
      (put location node entries).filter (fun entry => entry.1 != location) = entries := by
    intro entries
    induction entries with
    | nil => simp [put]
    | cons entry entries ih =>
      obtain ⟨key, old⟩ := entry
      intro hnone
      rw [lookup_cons] at hnone
      split at hnone
      · cases hnone
      next hkey =>
        have hother : (key == location) = false := beq_false_of_ne (Ne.symm hkey)
        rw [put, hother]
        simp only [Bool.false_eq_true, if_false]
        rw [filter_cons_of_pos (by simpa using Ne.symm hkey), ih hnone]
  rw [hentries _ hlookup]

/-- The tree with another content of the file at a location, if there is one. -/
def overwrite (tree : FileTree) (write : Location × Text) : FileTree :=
  match tree.nodeAt? write.1 with
  | some (.file _) => tree.insert write.1 (.file write.2)
  | _ => tree

theorem overwrite_eq {write : Location × Text} {old : Text}
    (h : tree.nodeAt? write.1 = some (.file old)) :
    tree.overwrite write = tree.insert write.1 (.file write.2) := by
  rw [overwrite, h]

/-- A tree in which a content is replaced, and one in which there is no file to be replaced. -/
theorem overwrite_cases (tree : FileTree) (write : Location × Text) :
    (∃ old, write.1 ≠ [] ∧ tree.nodeAt? write.1 = some (.file old) ∧
      tree.entries.lookup write.1 = some (.file old) ∧
      tree.overwrite write = tree.insert write.1 (.file write.2)) ∨
    (∀ old, tree.nodeAt? write.1 ≠ some (.file old)) ∧ tree.overwrite write = tree := by
  unfold overwrite
  split
  next old hnode =>
    have hne : write.1 ≠ [] := by
      intro hroot
      rw [hroot] at hnode
      cases hnode
    have hlookup := hnode
    unfold nodeAt? at hlookup
    rw [if_neg (by simpa using hne)] at hlookup
    exact .inl ⟨old, hne, hnode, hlookup, rfl⟩
  next hnone => exact .inr ⟨hnone, rfl⟩

theorem nodeAt?_overwrite (tree : FileTree) (write : Location × Text) (h : location ≠ write.1) :
    (tree.overwrite write).nodeAt? location = tree.nodeAt? location := by
  obtain ⟨old, hne, -, -, heq⟩ | ⟨-, heq⟩ := tree.overwrite_cases write
  · rw [heq, nodeAt?_insert tree hne, if_neg h]
  · rw [heq]

theorem map_shape_put {old : Text} (content : Text) {entries : List (Location × Node)}
    (h : entries.lookup location = some (.file old)) :
    (put location (.file content) entries).map (fun entry => (entry.1, entry.2.shape)) =
      entries.map fun entry => (entry.1, entry.2.shape) := by
  induction entries with
  | nil => cases h
  | cons entry entries ih =>
    obtain ⟨key, node⟩ := entry
    rw [lookup_cons] at h
    split at h
    next hkey =>
      cases h
      rw [put, hkey]
      simp [Node.shape]
    next hkey =>
      have hother : (key == location) = false := beq_false_of_ne (Ne.symm hkey)
      rw [put, hother]
      simp only [Bool.false_eq_true, if_false, map_cons, ih h]

theorem shape_overwrite (tree : FileTree) (write : Location × Text) :
    (tree.overwrite write).shape = tree.shape := by
  obtain ⟨old, -, -, hlookup, heq⟩ | ⟨-, heq⟩ := tree.overwrite_cases write
  · rw [heq]
    unfold insert shape
    rw [map_shape_put write.2 hlookup]
  · rw [heq]

/-- Contents that are put in places of which one is there already may be put in either order. -/
theorem put_comm {first second : Location} (hne : first ≠ second) (node other : Node)
    {entries : List (Location × Node)} (h : entries.lookup first ≠ none) :
    put second other (put first node entries) = put first node (put second other entries) := by
  induction entries with
  | nil => exact absurd rfl h
  | cons entry entries ih =>
    obtain ⟨key, old⟩ := entry
    by_cases hfirst : key = first
    · subst hfirst
      have hsecond : (key == second) = false := beq_false_of_ne hne
      simp only [put, beq_self_eq_true, hsecond, Bool.false_eq_true, if_true, if_false]
    · have hother : (key == first) = false := beq_false_of_ne hfirst
      rw [lookup_cons, if_neg (Ne.symm hfirst)] at h
      by_cases hsecond : key = second
      · subst hsecond
        simp only [put, beq_self_eq_true, hother, Bool.false_eq_true, if_true, if_false]
      · have hneither : (key == second) = false := beq_false_of_ne hsecond
        simp only [put, hother, hneither, Bool.false_eq_true, if_false, ih h]

/-- Contents of different files may be replaced in either order. -/
theorem overwrite_comm (tree : FileTree) {first second : Location × Text}
    (hne : first.1 ≠ second.1) :
    (tree.overwrite first).overwrite second = (tree.overwrite second).overwrite first := by
  have hkept : ∀ {write other : Location × Text}, other.1 ≠ write.1 →
      (∀ old, tree.nodeAt? other.1 ≠ some (.file old)) →
      (tree.overwrite write).overwrite other = tree.overwrite write := by
    intro write other hother hnone
    obtain ⟨old, -, hold, -⟩ | ⟨-, heq⟩ := (tree.overwrite write).overwrite_cases other
    · rw [nodeAt?_overwrite tree write hother] at hold
      exact absurd hold (hnone old)
    · exact heq
  obtain ⟨old, hroot, hnode, hlookup, hfirst⟩ | ⟨hnone, hfirst⟩ := tree.overwrite_cases first
  · obtain ⟨old', hroot', hnode', -, hsecond⟩ | ⟨hnone', hsecond⟩ := tree.overwrite_cases second
    · have hthere : (tree.overwrite first).nodeAt? second.1 = some (.file old') := by
        rw [nodeAt?_overwrite tree first (Ne.symm hne), hnode']
      have hthere' : (tree.overwrite second).nodeAt? first.1 = some (.file old) := by
        rw [nodeAt?_overwrite tree second hne, hnode]
      rw [overwrite_eq hthere, overwrite_eq hthere', hfirst, hsecond]
      unfold insert
      simp only
      rw [put_comm hne _ _ (by rw [hlookup]; simp)]
    · rw [hsecond, hkept (Ne.symm hne) hnone']
  · rw [hfirst, hkept hne hnone]

/-- Why a write to a file fails when nothing stands beside it: the path does not end with a name, or
the name is so long that none with `.tmp` added can be made. -/
def writeFault? (path operation : String) : Option Error :=
  match (ofString path).fileName? with
  | none => some (Cause.fileFailed ("Invalid path: " ++ path) (some operation)).error
  | some next =>
    if longestName < (next ++ ".tmp").utf8ByteSize then
      some (failure (operation ++ " (write temp)") .nameTooLong)
    else none

theorem node?_of_isFile (h : tree.isFile path) :
    ∃ content, tree.node? path = some (.file content) := by
  unfold isFile at h
  split at h
  next content hnode => exact ⟨content, hnode⟩
  · cases h

/-- Nothing stands beside the file that a path leads to. -/
def FreeBeside (tree : FileTree) (path : String) : Prop :=
  tree.isFile path → tree.nodeAt? (beside (tree.destination (ofString path))) = none

instance (tree : FileTree) (path : String) : Decidable (tree.FreeBeside path) :=
  inferInstanceAs (Decidable (_ → _))

namespace Leads

variable {route : Route} {directory : Location} {next : String}

/-- The steps to the name beside the target have no name that no file can have. -/
theorem noNul_scratch (h : tree.Leads route directory next) :
    (FileTree.scratch route next).steps.any hasNul = false := by
  obtain ⟨steps, hsteps, -⟩ := h.walk
  have hnul := h.noNul
  rw [hsteps] at hnul
  rw [FileTree.scratch, hsteps, dropLast_concat]
  simp only [any_append, any_cons, any_nil, Bool.or_false, Bool.or_eq_false_iff,
    hasNul, String.toList_append] at hnul ⊢
  refine ⟨hnul.1, ?_⟩
  simp at hnul ⊢
  exact hnul.2

/-- A route to a name beside the target leads there if the name is not too long. -/
theorem scratch (h : tree.Leads route directory next)
    (hshort : (next ++ ".tmp").utf8ByteSize ≤ longestName) :
    tree.Leads (FileTree.scratch route next) directory (next ++ ".tmp") := by
  obtain ⟨steps, hsteps, hwalk⟩ := h.walk
  have hscratch : (FileTree.scratch route next).steps = steps ++ [.name (next ++ ".tmp")] := by
    rw [FileTree.scratch, hsteps, dropLast_concat]
  exact ⟨rfl, ⟨steps, hscratch, hwalk⟩, h.noNul_scratch, hshort⟩

/-- A name that is too long cannot be written beside the target. -/
theorem writeTo_scratch (h : tree.Leads route directory next)
    (hlong : longestName < (next ++ ".tmp").utf8ByteSize) (content : Text) :
    tree.writeTo (FileTree.scratch route next) content = .error .nameTooLong := by
  obtain ⟨steps, hsteps, hwalk⟩ := h.walk
  have hempty : (FileTree.scratch route next).isEmpty = false := by
    simp [Route.isEmpty, FileTree.scratch]
  have hall : allSteps (FileTree.scratch route next) = steps ++ [.name (next ++ ".tmp")] := by
    simp [allSteps, FileTree.scratch, hsteps]
  have hlast : tree.walk (tree.start (FileTree.scratch route next))
      (steps ++ [.name (next ++ ".tmp")]) = .error .nameTooLong := by
    have hstart : tree.start (FileTree.scratch route next) = tree.start route := rfl
    rw [hstart, walk_append, hwalk]
    change tree.walk directory [.name (next ++ ".tmp")] = _
    rw [walk_name (walk_taken hwalk), if_pos hlong]
  unfold FileTree.writeTo
  rw [locateTarget_eq (by simp [FileTree.scratch]), locate_eq, hempty, h.noNul_scratch, hall, hlast]
  rfl

end Leads

/-- A write to a file beside which nothing stands fails for the path alone or replaces the content
in place. -/
theorem writeAtomic_of_free (hfile : tree.isFile path) (hfree : tree.FreeBeside path)
    (content : Text) (operation : String) :
    tree.writeAtomic path content operation =
      match writeFault? path operation with
      | some error => (.error error, tree)
      | none => (.ok (), tree.overwrite (tree.destination (ofString path), content)) := by
  obtain ⟨old, hold⟩ := node?_of_isFile hfile
  have hlocate := node?_eq_some_iff.mp hold
  have hnode := nodeAt?_of_node? hold
  have hbeside := hfree hfile
  unfold writeFault?
  cases hname : (ofString path).fileName? with
  | none => exact writeAtomic_unnamed hname tree content operation
  | some next =>
    obtain ⟨directory, hleads⟩ :=
      leads_of_locate (steps_of_fileName hname) (ending_of_file hlocate) hlocate
    rw [overwrite_eq hnode]
    rw [hleads.destination] at hnode hbeside ⊢
    have hbeside : tree.nodeAt? (directory ++ [next ++ ".tmp"]) = none := by
      simpa [beside] using hbeside
    rw [writeAtomic_named hname]
    by_cases hlong : longestName < (next ++ ".tmp").utf8ByteSize
    · simp only [hleads.writeTo_scratch hlong, if_pos hlong]
    · have hscratch := hleads.scratch (Nat.le_of_not_lt hlong)
      have hempty : tree.nodeAt? (directory ++ [next ++ ".tmp"]) ≠ some .directory := by
        rw [hbeside]
        simp
      have htarget : tree.nodeAt? (directory ++ [next]) ≠ some .directory := by
        rw [hnode]
        simp
      simp only [hscratch.writeTo, if_neg hempty, rename_scratch hscratch hleads hempty,
        if_neg htarget, if_neg hlong, erase_insert hbeside]

end FileTree

end Restyle
