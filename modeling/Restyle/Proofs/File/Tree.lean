import Restyle.File.Tree
import Restyle.Proofs.Attempt

/-!
# What a write to a file tree changes

The steps of a path lead to a location that does not depend on what the tree holds
(`FileTree.destination`). A write through a file beside the target changes the tree at two
locations: the target has the content, and nothing stands beside it any more
(`FileTree.writeAtomic_nodeAt?`). Where the path leads to a file already, a write that fails leaves
the tree as it was (`FileTree.writeAtomic_of_file`). Trees with the same directories that agree at a
location agree on every path to it (`FileTree.AgreesOutside.node?_eq`).
-/

namespace Restyle

open List Route

/-- The location that a step leads to. -/
def Route.Step.follow (location : Location) : Route.Step → Location
  | .current => location
  | .parent => location.dropLast
  | .name next => location ++ [next]

namespace FileTree

/-! ## Nodes after a change -/

theorem lookup_cons (other key : Location) (node : Node) (entries : List (Location × Node)) :
    ((key, node) :: entries).lookup other =
      if other = key then some node else entries.lookup other := by
  rw [List.lookup_cons]
  by_cases hother : other = key
  · simp [hother]
  · simp [hother, beq_false_of_ne hother]

/-- What is put at a location is found there, and all else as before. -/
theorem lookup_put (location other : Location) (node : Node) (entries : List (Location × Node)) :
    (put location node entries).lookup other =
      if other = location then some node else entries.lookup other := by
  induction entries with
  | nil => rw [put, lookup_cons]
  | cons entry entries ih =>
    obtain ⟨key, old⟩ := entry
    unfold put
    by_cases hkey : key = location
    · subst hkey
      simp only [beq_self_eq_true, if_true, lookup_cons]
      split <;> rfl
    · rw [if_neg (by simpa using hkey), lookup_cons, lookup_cons, ih]
      by_cases hother : other = key
      · subst hother
        simp [hkey]
      · simp [hother]

theorem nodeAt?_insert (tree : FileTree) {location : Location} (hne : location ≠ []) (node : Node)
    (other : Location) : (tree.insert location node).nodeAt? other =
      if other = location then some node else tree.nodeAt? other := by
  unfold nodeAt? insert
  by_cases hother : other = []
  · subst hother
    simp [hne.symm]
  · simp [hother, lookup_put]

theorem lookup_filter_ne (location other : Location) (entries : List (Location × Node)) :
    (entries.filter fun entry => entry.1 != location).lookup other =
      if other = location then none else entries.lookup other := by
  induction entries with
  | nil => simp
  | cons entry entries ih =>
    obtain ⟨key, node⟩ := entry
    by_cases hkey : key = location
    · subst hkey
      rw [filter_cons_of_neg (by simp), ih, lookup_cons]
      split <;> rfl
    · rw [filter_cons_of_pos (by simpa using hkey), lookup_cons, lookup_cons, ih]
      by_cases hother : other = key
      · subst hother
        simp [hkey]
      · simp [hother]

theorem nodeAt?_erase (tree : FileTree) {location : Location} (hne : location ≠ [])
    (other : Location) : (tree.erase location).nodeAt? other =
      if other = location then none else tree.nodeAt? other := by
  unfold nodeAt? erase
  by_cases hother : other = []
  · subst hother
    simp [hne.symm]
  · simp [hother, lookup_filter_ne]

/-! ## Walks -/

/-- The location of a place. -/
def Place.location : Place → Location
  | .taken location _ => location
  | .free location => location

/-- A walk goes on from where its first steps lead. Nothing is behind a free name. -/
theorem walk_append (tree : FileTree) (start : Location) (steps more : List Route.Step) :
    tree.walk start (steps ++ more) = tree.walk start steps >>= fun place =>
      match place with
      | .taken location _ => tree.walk location more
      | .free location => if more.isEmpty then pure (.free location) else throw .notFound := by
  induction steps generalizing start with
  | nil =>
    rw [nil_append, walk.eq_def tree start []]
    cases hnode : tree.nodeAt? start with
    | none =>
      rw [walk.eq_def, hnode]
      cases more <;> rfl
    | some node => rfl
  | cons step steps ih =>
    rw [cons_append, walk.eq_def, walk.eq_def tree start (step :: steps)]
    cases tree.nodeAt? start with
    | none => rfl
    | some node =>
      cases node with
      | file content => rfl
      | directory =>
        cases step with
        | current => exact ih start
        | parent => exact ih start.dropLast
        | name next =>
          simp only
          split
          · rfl
          · split
            · exact ih (start ++ [next])
            · cases steps <;> cases more <;> rfl

variable {tree moved : FileTree} {steps : List Route.Step} {place : Place} {directory : Location}
  {next path operation : String} {route : Route} {content : Text} {node : Node}

theorem walk_location {start : Location} (h : tree.walk start steps = .ok place) :
    place.location = steps.foldl Route.Step.follow start := by
  fun_induction walk tree start steps with
  | case1 start node hnode =>
    cases h
    rfl
  | case5 start rest hnode ih | case6 start rest hnode ih
  | case8 start rest hnode next hlong htaken ih => exact ih h
  | case9 start rest hnode next hlong hfree hrest =>
    cases h
    rw [List.isEmpty_iff.mp hrest]
    rfl
  | case2 | case3 | case4 | case7 | case10 => cases h

theorem walk_taken {start location : Location}
    (h : tree.walk start steps = .ok (.taken location node)) :
    tree.nodeAt? location = some node := by
  fun_induction walk tree start steps with
  | case1 start node' hnode =>
    cases h
    exact hnode
  | case5 start rest hnode ih | case6 start rest hnode ih
  | case8 start rest hnode next hlong htaken ih => exact ih h
  | case2 | case3 | case4 | case7 | case9 | case10 => cases h

/-- A walk that goes on from a location finds a directory there. -/
theorem nodeAt?_start {start location : Location}
    (h : tree.walk start steps = .ok (.taken location node)) :
    start = location ∨ tree.nodeAt? start = some .directory := by
  rw [walk.eq_def] at h
  cases hnode : tree.nodeAt? start with
  | none =>
    rw [hnode] at h
    cases steps <;> cases h
  | some first =>
    cases first with
    | directory => exact .inr rfl
    | file content =>
      rw [hnode] at h
      cases steps with
      | nil =>
        cases h
        exact .inl rfl
      | cons step rest => cases h

/-- A walk to a node goes through directories only, and is the same in every tree that has them and
the node. -/
theorem walk_mono {other : FileTree} {start location : Location}
    (hkeep : ∀ location, tree.nodeAt? location = some .directory →
      other.nodeAt? location = some .directory)
    (h : tree.walk start steps = .ok (.taken location node))
    (hfound : other.nodeAt? location = some node) :
    other.walk start steps = .ok (.taken location node) := by
  fun_induction walk tree start steps with
  | case1 start node' hnode =>
    cases h
    rw [walk.eq_def, hfound]
  | case5 start rest hnode ih | case6 start rest hnode ih =>
    rw [walk.eq_def, hkeep _ hnode]
    exact ih h
  | case8 start rest hnode next hlong htaken ih =>
    -- The walk ends at the name or goes through it, and then it is a directory.
    have hthere : (other.nodeAt? (start ++ [next])).isSome := by
      rcases nodeAt?_start h with hend | hdirectory
      · rw [hend, hfound]
        rfl
      · rw [hkeep _ hdirectory]
        rfl
    rw [walk.eq_def, hkeep _ hnode]
    simp only [if_neg hlong, if_pos hthere]
    exact ih h
  | case2 | case3 | case4 | case7 | case9 | case10 => cases h

/-- What a location is to a walk that ends there. -/
def placeAt (tree : FileTree) (location : Location) : Place :=
  match tree.nodeAt? location with
  | some node => .taken location node
  | none => .free location

/-- In a directory every name that is not too long has a place. -/
theorem walk_name (h : tree.nodeAt? directory = some .directory) (next : String) :
    tree.walk directory [.name next] =
      if longestName < next.utf8ByteSize then .error .nameTooLong
      else .ok (tree.placeAt (directory ++ [next])) := by
  rw [walk.eq_def, h]
  simp only
  split
  · rfl
  · rw [walk.eq_def, placeAt]
    cases tree.nodeAt? (directory ++ [next]) <;> rfl

/-- A walk ends at a name if what comes before leads to a directory and the name is not too long. -/
theorem walk_named {start : Location} : tree.walk start (steps ++ [.name next]) = .ok place ↔
      ∃ directory, tree.walk start steps = .ok (.taken directory .directory) ∧
        next.utf8ByteSize ≤ longestName ∧ place = tree.placeAt (directory ++ [next]) := by
  rw [walk_append]
  constructor
  · intro h
    obtain ⟨reached, hwalk, h⟩ := bind_eq_ok_iff.mp h
    cases reached with
    | free location => cases h
    | taken location node =>
      have hnode := walk_taken hwalk
      change tree.walk location [.name next] = .ok place at h
      cases node with
      | file content =>
        rw [walk.eq_def, hnode] at h
        cases h
      | directory =>
        rw [walk_name hnode] at h
        split at h
        · cases h
        next hshort =>
          cases h
          exact ⟨location, hwalk, Nat.le_of_not_lt hshort, rfl⟩
  · rintro ⟨directory, hwalk, hshort, rfl⟩
    rw [hwalk]
    change tree.walk directory [.name next] = _
    rw [walk_name (walk_taken hwalk), if_neg (Nat.not_lt.mpr hshort)]

/-! ## Where paths lead -/

/-- Where the steps of a route begin. -/
def start (tree : FileTree) (route : Route) : Location :=
  if route.isAbsolute then [] else tree.workingDirectory

/-- The location that a route names. -/
def destination (tree : FileTree) (route : Route) : Location :=
  route.steps.foldl Route.Step.follow (tree.start route)

/-- Whether a step has a name that no file can have. -/
def hasNul : Route.Step → Bool
  | .name next => next.toList.contains '\x00'
  | _ => false

/-- A route with a dot behind it has one more step. -/
def allSteps (route : Route) : List Route.Step :=
  if route.ending == .dot then route.steps ++ [.current] else route.steps

/-- A place is found by a walk, and only a directory will do behind a slash. -/
theorem locate_eq (tree : FileTree) (route : Route) : tree.locate route =
    if route.isEmpty then .error .notFound
    else if route.steps.any hasNul then .error .nulByte
    else match tree.walk (tree.start route) (allSteps route) with
      | .error fault => .error fault
      | .ok (.taken location (.file content)) =>
        if route.ending == .slash then .error .notDirectory
        else .ok (.taken location (.file content))
      | .ok place => .ok place := by
  show (if route.isEmpty then .error .notFound
    else if route.steps.any hasNul then .error .nulByte
    else tree.walk (tree.start route) (allSteps route) >>= _) = _
  cases tree.walk (tree.start route) (allSteps route) with
  | error fault => rfl
  | ok place =>
    cases place with
    | free location => rfl
    | taken location node => cases node <;> rfl

theorem walk_of_locate (h : tree.locate route = .ok place) :
    route.isEmpty = false ∧ route.steps.any hasNul = false ∧
      tree.walk (tree.start route) (allSteps route) = .ok place := by
  rw [locate_eq] at h
  split at h
  · cases h
  next hempty =>
    split at h
    · cases h
    next hnul =>
      refine ⟨by simpa using hempty, by simpa using hnul, ?_⟩
      split at h
      · cases h
      next location content hwalk =>
        split at h
        · cases h
        · exact hwalk.trans h
      next hwalk => exact hwalk.trans h

theorem locate_location (h : tree.locate route = .ok place) :
    place.location = tree.destination route := by
  obtain ⟨-, -, hwalk⟩ := walk_of_locate h
  have hsteps : (allSteps route).foldl Route.Step.follow (tree.start route) =
      tree.destination route := by
    unfold allSteps destination
    split
    · rw [foldl_append]; rfl
    · rfl
  rw [walk_location hwalk, hsteps]

/-- What a path leads to stands at the location that the path names. -/
theorem node?_eq_some_iff : tree.node? path = some node ↔
    tree.locate (ofString path) =
      .ok (.taken (tree.destination (ofString path)) node) := by
  rw [node?]
  constructor
  · intro h
    split at h
    next location found hlocate =>
      cases h
      rw [hlocate, ← locate_location hlocate]
      rfl
    · cases h
  · intro h
    rw [h]

theorem nodeAt?_of_node? (h : tree.node? path = some node) :
    tree.nodeAt? (tree.destination (ofString path)) = some node :=
  walk_taken (walk_of_locate (node?_eq_some_iff.mp h)).2.2

/-- A route leads to a name in a directory of the tree, whatever stands there. -/
structure Leads (tree : FileTree) (route : Route) (directory : Location) (next : String) :
    Prop where
  ending : route.ending = .nothing
  walk : ∃ steps, route.steps = steps ++ [.name next] ∧
    tree.walk (tree.start route) steps = .ok (.taken directory .directory)
  noNul : route.steps.any hasNul = false
  short : next.utf8ByteSize ≤ longestName

namespace Leads

variable {tree : FileTree} {route : Route} {directory : Location} {next : String}

/-- A name in a directory is where the route leads. -/
theorem locate (h : tree.Leads route directory next) :
    tree.locate route = .ok (tree.placeAt (directory ++ [next])) := by
  obtain ⟨steps, hsteps, hwalk⟩ := h.walk
  have hempty : route.isEmpty = false := by simp [Route.isEmpty, hsteps]
  have hall : allSteps route = steps ++ [.name next] := by simp [allSteps, h.ending, hsteps]
  rw [locate_eq, hempty, h.noNul, hall, walk_named.mpr ⟨directory, hwalk, h.short, rfl⟩, h.ending]
  unfold placeAt
  cases tree.nodeAt? (directory ++ [next]) with
  | none => rfl
  | some node => cases node <;> rfl

theorem node? {path : String} (h : tree.Leads (ofString path) directory next) :
    tree.node? path = tree.nodeAt? (directory ++ [next]) := by
  rw [FileTree.node?, h.locate, placeAt]
  cases tree.nodeAt? (directory ++ [next]) <;> rfl

theorem destination (h : tree.Leads route directory next) :
    tree.destination route = directory ++ [next] := by
  have hlocation := locate_location h.locate
  rw [← hlocation, placeAt]
  split <;> rfl

/-- A route leads to the same name in every tree with the same directories. -/
theorem mono {other : FileTree} (h : tree.Leads route directory next)
    (hkeep : ∀ location, tree.nodeAt? location = some .directory →
      other.nodeAt? location = some .directory)
    (hworking : other.workingDirectory = tree.workingDirectory) :
    other.Leads route directory next := by
  obtain ⟨steps, hsteps, hwalk⟩ := h.walk
  have hstart : other.start route = tree.start route := by rw [start, start, hworking]
  refine ⟨h.ending, ⟨steps, hsteps, ?_⟩, h.noNul, h.short⟩
  rw [hstart]
  exact walk_mono hkeep hwalk (hkeep _ (walk_taken hwalk))

end Leads

/-- A route that ends with a name and leads somewhere leads to that name in a directory. -/
theorem leads_of_locate (hsteps : route.steps = steps ++ [.name next])
    (hending : route.ending = .nothing) (h : tree.locate route = .ok place) :
    ∃ directory, tree.Leads route directory next := by
  obtain ⟨-, hnul, hwalk⟩ := walk_of_locate h
  have hall : allSteps route = steps ++ [.name next] := by simp [allSteps, hending, hsteps]
  rw [hall] at hwalk
  obtain ⟨directory, hdirectory, hshort, -⟩ := walk_named.mp hwalk
  exact ⟨directory, hending, ⟨steps, hsteps, hdirectory⟩, hnul, hshort⟩

/-- Only a directory is found behind a dot. -/
theorem locate_dot (hending : route.ending = .dot) (h : tree.locate route = .ok place) :
    ∃ location, place = .taken location .directory := by
  obtain ⟨-, -, hwalk⟩ := walk_of_locate h
  have hall : allSteps route = route.steps ++ [.current] := by simp [allSteps, hending]
  rw [hall, walk_append] at hwalk
  obtain ⟨reached, hfirst, hwalk⟩ := bind_eq_ok_iff.mp hwalk
  cases reached with
  | free location => cases hwalk
  | taken location node =>
    change tree.walk location [.current] = .ok place at hwalk
    rw [walk.eq_def, walk_taken hfirst] at hwalk
    cases node with
    | file content => cases hwalk
    | directory =>
      simp only [walk.eq_def tree location [], walk_taken hfirst] at hwalk
      cases hwalk
      exact ⟨location, rfl⟩

/-- A route that leads to a file has nothing behind its last step. -/
theorem ending_of_file {location : Location}
    (h : tree.locate route = .ok (.taken location (.file content))) : route.ending = .nothing := by
  cases hending : route.ending with
  | nothing => rfl
  | dot =>
    obtain ⟨other, hplace⟩ := locate_dot hending h
    cases hplace
  | slash =>
    obtain ⟨hempty, hnul, hwalk⟩ := walk_of_locate h
    rw [locate_eq, hempty, hnul, hwalk, hending] at h
    cases h

/-! ## Writing -/

/-- Only a slash makes a difference to where a target is found. -/
theorem locateTarget_eq (h : route.ending ≠ .slash) (tree : FileTree) :
    tree.locateTarget route = tree.locate route := by
  rw [locateTarget, if_neg (by simpa using h)]

namespace Leads

variable {tree : FileTree} {route : Route} {directory : Location} {next : String}

theorem locateTarget (h : tree.Leads route directory next) :
    tree.locateTarget route = .ok (tree.placeAt (directory ++ [next])) := by
  rw [locateTarget_eq (by simp [h.ending]), h.locate]

/-- A file is written unless there is a directory in its place. -/
theorem writeTo (h : tree.Leads route directory next) (content : Text) :
    tree.writeTo route content =
      if tree.nodeAt? (directory ++ [next]) = some .directory then .error .isDirectory
      else .ok (tree.insert (directory ++ [next]) (.file content)) := by
  unfold FileTree.writeTo
  rw [h.locateTarget, h.ending, placeAt]
  cases tree.nodeAt? (directory ++ [next]) with
  | none => rfl
  | some node => cases node <;> rfl

/-- A file is moved to another name unless there is a directory in its place. -/
theorem rename {target : Route} {other : String} (h : tree.Leads route directory next)
    (htarget : tree.Leads target directory other) (hother : other ≠ next) {content : Text}
    (hcontent : tree.nodeAt? (directory ++ [next]) = some (.file content)) :
    tree.rename route target =
      if tree.nodeAt? (directory ++ [other]) = some .directory then .error .isDirectory
      else .ok ((tree.erase (directory ++ [next])).insert (directory ++ [other])
        (.file content)) := by
  have hplace : tree.placeAt (directory ++ [next]) =
      .taken (directory ++ [next]) (.file content) := by
    rw [placeAt, hcontent]
  have hne : (directory ++ [next] == directory ++ [other]) = false := by
    simpa using hother.symm
  unfold FileTree.rename
  rw [h.locate, htarget.locateTarget, htarget.ending, hplace, placeAt]
  cases tree.nodeAt? (directory ++ [other]) with
  | none => rfl
  | some node =>
    cases node with
    | directory => rfl
    | file old =>
      change (if directory ++ [next] == directory ++ [other] then pure tree
        else pure ((tree.erase (directory ++ [next])).insert (directory ++ [other])
          (.file content)) : Except FileFault FileTree) = _
      rw [hne]
      rfl

end Leads

/-- The route to the file beside the target of a write. -/
def scratch (route : Route) (next : String) : Route :=
  ⟨route.isAbsolute, route.steps.dropLast ++ [.name (next ++ ".tmp")], .nothing⟩

theorem utf8ByteSize_scratch (next : String) :
    (next ++ ".tmp").utf8ByteSize = next.utf8ByteSize + 4 := by
  rw [String.utf8ByteSize_append]
  rfl

theorem scratch_ne (next : String) : next ≠ next ++ ".tmp" := by
  intro h
  have hsize := congrArg String.utf8ByteSize h
  rw [utf8ByteSize_scratch] at hsize
  omega

/-- A route that ends with a name, cut before it. -/
theorem steps_of_fileName (h : route.fileName? = some next) :
    route.steps = route.steps.dropLast ++ [.name next] := by
  unfold fileName? at h
  split at h
  next other hlast =>
    cases h
    obtain ⟨steps, hsteps⟩ := getLast?_eq_some_iff.mp hlast
    rw [hsteps, dropLast_concat]
  · cases h

/-- A write to a path that ends with a name is one to a file beside it, which is then moved. -/
theorem writeAtomic_named (h : (ofString path).fileName? = some next) (tree : FileTree)
    (content : Text) (operation : String) :
    tree.writeAtomic path content operation =
      match tree.writeTo (scratch (ofString path) next) content with
      | .error fault => (.error (failure (operation ++ " (write temp)") fault), tree)
      | .ok written =>
        match written.rename (scratch (ofString path) next) (ofString path) with
        | .error fault => (.error (failure (operation ++ " (rename)") fault), written)
        | .ok moved => (.ok (), moved) := by
  have hparent : (ofString path).parent? =
      some ⟨(ofString path).isAbsolute, (ofString path).steps.dropLast, .nothing⟩ := by
    rw [parent?, steps_of_fileName h]
    simp
  unfold writeAtomic
  simp only [hparent, h]
  rfl

/-- A write to a path that does not end with a name fails and changes nothing. -/
theorem writeAtomic_unnamed (h : (ofString path).fileName? = none) (tree : FileTree)
    (content : Text) (operation : String) :
    tree.writeAtomic path content operation =
      (.error (Cause.fileFailed ("Invalid path: " ++ path) (some operation)).error, tree) := by
  unfold writeAtomic
  simp only [h]
  split
  next hparent hname => cases hname
  · rfl

/-- Beside the target the route leads to the same directory. -/
theorem Leads.of_scratch (hname : route.fileName? = some next) (hending : route.ending = .nothing)
    (h : tree.Leads (scratch route next) directory (next ++ ".tmp")) :
    tree.Leads route directory next := by
  obtain ⟨steps, hsteps, hwalk⟩ := h.walk
  have hdirectory : route.steps.dropLast = steps := append_inj_left' hsteps rfl
  have hroute := steps_of_fileName hname
  have hnul := h.noNul
  have hshort := h.short
  rw [utf8ByteSize_scratch] at hshort
  refine ⟨hending, ⟨route.steps.dropLast, hroute, by rw [hdirectory]; exact hwalk⟩, ?_, by omega⟩
  rw [hroute]
  simp only [scratch, any_append, any_cons, any_nil, Bool.or_false,
    Bool.or_eq_false_iff, hasNul, String.toList_append] at hnul ⊢
  refine ⟨hnul.1, ?_⟩
  simp at hnul ⊢
  exact hnul.2

/-- A write that succeeds beside the target found the directory. -/
theorem leads_of_writeTo {written : FileTree}
    (h : tree.writeTo (scratch route next) content = .ok written) :
    ∃ directory, tree.Leads (scratch route next) directory (next ++ ".tmp") ∧
      tree.nodeAt? (directory ++ [next ++ ".tmp"]) ≠ some .directory ∧
      written = tree.insert (directory ++ [next ++ ".tmp"]) (.file content) := by
  obtain ⟨place, hplace, -⟩ := bind_eq_ok_iff.mp h
  rw [locateTarget_eq (by simp [scratch])] at hplace
  obtain ⟨directory, hleads⟩ := leads_of_locate rfl rfl hplace
  rw [hleads.writeTo] at h
  split at h
  · cases h
  next hfree =>
    cases h
    exact ⟨directory, hleads, hfree, rfl⟩

/-- A file that was written beside the target is moved there, unless there is a directory in its
place. -/
theorem rename_scratch (hscratch : tree.Leads (scratch route next) directory (next ++ ".tmp"))
    (hroute : tree.Leads route directory next)
    (hfree : tree.nodeAt? (directory ++ [next ++ ".tmp"]) ≠ some .directory) (content : Text) :
    (tree.insert (directory ++ [next ++ ".tmp"]) (.file content)).rename (scratch route next)
      route = if tree.nodeAt? (directory ++ [next]) = some .directory then .error .isDirectory
      else .ok (((tree.insert (directory ++ [next ++ ".tmp"]) (.file content)).erase
        (directory ++ [next ++ ".tmp"])).insert (directory ++ [next]) (.file content)) := by
  have hne : directory ++ [next ++ ".tmp"] ≠ [] := by simp
  have hnode := tree.nodeAt?_insert hne (.file content)
  have hkeep : ∀ location, tree.nodeAt? location = some .directory →
      (tree.insert (directory ++ [next ++ ".tmp"]) (.file content)).nodeAt? location =
        some .directory := by
    intro location hdirectory
    rw [hnode, if_neg, hdirectory]
    rintro rfl
    exact hfree hdirectory
  have hother : directory ++ [next] ≠ directory ++ [next ++ ".tmp"] := by
    simpa using scratch_ne next
  rw [(hscratch.mono hkeep rfl).rename (hroute.mono hkeep rfl) (scratch_ne next)
    (by rw [hnode, if_pos rfl]), hnode, if_neg hother]

/-- A file is moved only to a place without a directory, by a route without a slash behind it. -/
theorem rename_ok {source target : Route} (h : tree.rename source target = .ok moved) :
    ∃ place, tree.locateTarget target = .ok place ∧ (target.ending == .slash) = false ∧
      ∀ location, place ≠ .taken location .directory := by
  obtain ⟨place, -, h⟩ := bind_eq_ok_iff.mp h
  cases place with
  | free location => cases h
  | taken location node =>
    cases node with
    | directory => cases h
    | file content =>
      obtain ⟨found, htarget, h⟩ := bind_eq_ok_iff.mp h
      cases hslash : target.ending == .slash with
      | true =>
        rw [hslash] at h
        cases found <;> cases h
      | false =>
        rw [hslash] at h
        refine ⟨found, htarget, rfl, ?_⟩
        rintro other rfl
        cases h

/-- A file is moved only by a route with nothing behind its last step. -/
theorem ending_of_rename {source target : Route} (h : tree.rename source target = .ok moved) :
    target.ending = .nothing := by
  obtain ⟨place, hplace, hslash, hdirectory⟩ := rename_ok h
  cases hending : target.ending with
  | nothing => rfl
  | slash =>
    rw [hending] at hslash
    cases hslash
  | dot =>
    rw [locateTarget_eq (by simp [hending])] at hplace
    obtain ⟨location, rfl⟩ := locate_dot hending hplace
    exact absurd rfl (hdirectory location)

/-- What a write that succeeds makes of a tree: the path leads to a name in a directory, which now
has the content, and the name beside it is free. -/
theorem writeAtomic_moved (h : tree.writeAtomic path content operation = (.ok (), moved)) :
    ∃ directory next, tree.Leads (ofString path) directory next ∧
      moved.workingDirectory = tree.workingDirectory ∧
      (∀ location, tree.nodeAt? location = some .directory →
        moved.nodeAt? location = some .directory) ∧
      ∀ location, moved.nodeAt? location =
        if location = directory ++ [next] then some (.file content)
        else if location = directory ++ [next ++ ".tmp"] then none
        else tree.nodeAt? location := by
  cases hname : (ofString path).fileName? with
  | none =>
    rw [writeAtomic_unnamed hname] at h
    cases h
  | some next =>
    rw [writeAtomic_named hname] at h
    split at h
    · cases h
    next written hwritten =>
      obtain ⟨directory, hscratch, hfree, rfl⟩ := leads_of_writeTo hwritten
      split at h
      · cases h
      next result hrename =>
        cases h
        have hroute := hscratch.of_scratch hname (ending_of_rename hrename)
        rw [rename_scratch hscratch hroute hfree] at hrename
        split at hrename
        · cases hrename
        next htarget =>
          cases hrename
          have hnode : ∀ location, (((tree.insert (directory ++ [next ++ ".tmp"])
              (.file content)).erase (directory ++ [next ++ ".tmp"])).insert
              (directory ++ [next]) (.file content)).nodeAt? location =
              if location = directory ++ [next] then some (.file content)
              else if location = directory ++ [next ++ ".tmp"] then none
              else tree.nodeAt? location := by
            intro location
            rw [nodeAt?_insert _ (by simp), nodeAt?_erase _ (by simp), nodeAt?_insert _ (by simp)]
            split
            · rfl
            · split
              · rfl
              · rfl
          refine ⟨directory, next, hroute, rfl, ?_, hnode⟩
          intro location hdirectory
          rw [hnode, if_neg, if_neg, hdirectory]
          · rintro rfl
            exact hfree hdirectory
          · rintro rfl
            exact htarget hdirectory

/-- The location beside another, with `.tmp` added to its name. -/
def beside (location : Location) : Location :=
  location.dropLast ++ (location.getLast?.map (· ++ ".tmp")).toList

/-- What stands where after a write that succeeds: the content at the location that the path names,
nothing beside it, and everywhere else what was there. -/
theorem writeAtomic_nodeAt? (h : tree.writeAtomic path content operation = (.ok (), moved))
    (location : Location) :
    moved.nodeAt? location =
      if location = tree.destination (ofString path) then some (.file content)
      else if location = beside (tree.destination (ofString path)) then none
      else tree.nodeAt? location := by
  obtain ⟨directory, next, hleads, -, -, hnode⟩ := writeAtomic_moved h
  have hbeside : beside (directory ++ [next]) = directory ++ [next ++ ".tmp"] := by simp [beside]
  rw [hnode, hleads.destination, hbeside]

/-- After a write that succeeds the path leads to the content. -/
theorem writeAtomic_node? (h : tree.writeAtomic path content operation = (.ok (), moved)) :
    moved.node? path = some (.file content) := by
  obtain ⟨directory, next, hleads, hworking, hkeep, hnode⟩ := writeAtomic_moved h
  rw [(hleads.mono hkeep hworking).node?, hnode, if_pos rfl]

/-- Where a path leads to a file, a write to it succeeds or leaves the tree as it was. -/
theorem writeAtomic_of_file {old : Text} (h : tree.node? path = some (.file old)) (content : Text)
    (operation : String) :
    (∃ error, tree.writeAtomic path content operation = (.error error, tree)) ∨
      ∃ moved, tree.writeAtomic path content operation = (.ok (), moved) := by
  cases hname : (ofString path).fileName? with
  | none => exact .inl ⟨_, writeAtomic_unnamed hname tree content operation⟩
  | some next =>
    rw [writeAtomic_named hname]
    split
    next fault => exact .inl ⟨_, rfl⟩
    next written hwritten =>
      -- The directory beside which the file was written is that of the target, which is a file.
      obtain ⟨directory, hscratch, hfree, rfl⟩ := leads_of_writeTo hwritten
      have hroute := hscratch.of_scratch hname (ending_of_file (node?_eq_some_iff.mp h))
      rw [rename_scratch hscratch hroute hfree, ← hroute.node?, h]
      exact .inr ⟨_, rfl⟩

/-! ## Trees that agree -/

/-- Two trees have the same directories, and the same nodes outside some locations. -/
structure AgreesOutside (changed : Location → Prop) (tree other : FileTree) : Prop where
  workingDirectory : other.workingDirectory = tree.workingDirectory
  directories : ∀ location, tree.nodeAt? location = some .directory ↔
    other.nodeAt? location = some .directory
  outside : ∀ location, ¬ changed location → other.nodeAt? location = tree.nodeAt? location

namespace AgreesOutside

variable {changed more : Location → Prop} {tree middle other : FileTree}

theorem refl (tree : FileTree) : AgreesOutside changed tree tree :=
  ⟨rfl, fun _ => Iff.rfl, fun _ _ => rfl⟩

/-- Trees that agree outside some locations agree outside more of them. -/
theorem imp (h : AgreesOutside changed tree other) (himp : ∀ location, changed location →
    more location) : AgreesOutside more tree other :=
  ⟨h.workingDirectory, h.directories, fun location hsame => h.outside location (hsame ∘ himp _)⟩

theorem trans (hfirst : AgreesOutside changed tree middle)
    (hsecond : AgreesOutside changed middle other) : AgreesOutside changed tree other := by
  refine ⟨hsecond.workingDirectory.trans hfirst.workingDirectory, fun location => ?_,
    fun location hsame => ?_⟩
  · rw [hfirst.directories, hsecond.directories]
  · rw [hsecond.outside location hsame, hfirst.outside location hsame]

theorem symm (h : AgreesOutside changed tree other) : AgreesOutside changed other tree :=
  ⟨h.workingDirectory.symm, fun location => (h.directories location).symm,
    fun location hsame => (h.outside location hsame).symm⟩

theorem destination_eq (h : AgreesOutside changed tree other) (route : Route) :
    other.destination route = tree.destination route := by
  rw [destination, destination, start, start, h.workingDirectory]

/-- What a path leads to outside the changed locations is found in both trees. -/
theorem node?_some (h : AgreesOutside changed tree other) {path : String} {node : Node}
    (houtside : ¬ changed (tree.destination (ofString path)))
    (hnode : tree.node? path = some node) : other.node? path = some node := by
  have hlocate := node?_eq_some_iff.mp hnode
  obtain ⟨hempty, hnul, hwalk⟩ := walk_of_locate hlocate
  have hfound : other.nodeAt? (tree.destination (ofString path)) = some node := by
    rw [h.outside _ houtside, walk_taken hwalk]
  have hstart : other.start (ofString path) = tree.start (ofString path) := by
    rw [start, start, h.workingDirectory]
  have hother := walk_mono (fun location => (h.directories location).mp) hwalk hfound
  rw [locate_eq, hempty, hnul, hwalk] at hlocate
  rw [node?, locate_eq, hempty, hnul, hstart, hother, hlocate]

/-- A path leads to the same in both trees unless it names a changed location. -/
theorem node?_eq (h : AgreesOutside changed tree other) {path : String}
    (houtside : ¬ changed (tree.destination (ofString path))) :
    other.node? path = tree.node? path := by
  cases hnode : tree.node? path with
  | some node => exact h.node?_some houtside hnode
  | none =>
    cases hother : other.node? path with
    | none => rfl
    | some node =>
      have hback := h.symm.node?_some (h.destination_eq _ ▸ houtside) hother
      rw [hnode] at hback
      cases hback

end AgreesOutside

/-- A write that succeeds changes a tree at the location that the path names and beside it. -/
theorem writeAtomic_agrees (h : tree.writeAtomic path content operation = (.ok (), moved)) :
    AgreesOutside (fun location => location = tree.destination (ofString path) ∨
      location = beside (tree.destination (ofString path))) tree moved := by
  obtain ⟨directory, next, hleads, hworking, hkeep, -⟩ := writeAtomic_moved h
  refine ⟨hworking, fun location => ⟨hkeep location, fun hdirectory => ?_⟩,
    fun location hsame => ?_⟩
  · rw [writeAtomic_nodeAt? h] at hdirectory
    split at hdirectory
    · cases hdirectory
    · split at hdirectory
      · cases hdirectory
      · exact hdirectory
  · rw [writeAtomic_nodeAt? h, if_neg (hsame ∘ .inl), if_neg (hsame ∘ .inr)]

end FileTree

end Restyle
