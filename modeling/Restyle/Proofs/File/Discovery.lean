import Restyle.Configuration.Loading
import Restyle.File.Discovery
import Restyle.Proofs.File.Shape

/-!
# Discovery

The files that patterns list depend on which names there are, not on what the files hold
(`Discovery.files_congr`). A configuration that is loaded depends on the shape of the tree and on
its own file (`Configuration.load_congr`). Discovery keeps the first of the paths that are spelled
with the same steps, and excludes a file by its spelling (`Discovery.files_exact`). Through the
directory above, one file has several spellings: it may be found twice, or found though it is
excluded (`Discovery.files_twice`).
-/

namespace Restyle

open Configuration Discovery FileTree List

namespace FileTree

variable (tree : FileTree)

theorem isDirectory_shape (path : String) :
    tree.shape.isDirectory path = tree.isDirectory path := by
  rw [isDirectory, isDirectory, node?_shape]
  cases tree.node? path with
  | none => rfl
  | some node => cases node <;> rfl

theorem hasPath_shape (path : String) : tree.shape.hasPath path = tree.hasPath path := by
  rw [hasPath, hasPath, node?_shape, Option.isSome_map]

theorem list?_shape (path : String) : tree.shape.list? path = tree.list? path := by
  rw [list?, list?, locate_shape]
  cases tree.locate (Route.ofString path) with
  | error fault => rfl
  | ok place =>
    cases place with
    | free location => rfl
    | taken location node =>
      cases node with
      | file content => rfl
      | directory => exact congrArg some (tree.names_shape location)

end FileTree

namespace Wildcard

variable (tree : FileTree)

theorem candidates_shape (components : List Component) (path : String) :
    candidates tree.shape components path = candidates tree components path := by
  induction components generalizing path with
  | nil => rfl
  | cons component later ih =>
    have hlater : candidates tree.shape later = candidates tree later := funext ih
    simp only [candidates, hlater, isDirectory_shape, hasPath_shape, list?_shape]

theorem follow_shape (directoriesOnly : Bool) (fuel : Nat) (candidate : Candidate) :
    follow tree.shape directoriesOnly fuel candidate =
      follow tree directoriesOnly fuel candidate := by
  induction fuel generalizing candidate with
  | zero => rfl
  | succ fuel ih =>
    have hfollow : follow tree.shape directoriesOnly fuel = follow tree directoriesOnly fuel :=
      funext ih
    simp only [follow, hfollow, candidates_shape, isDirectory_shape]

theorem list_shape (pattern : Pattern) : list tree.shape pattern = list tree pattern := by
  have hfollow : ∀ fuel, follow tree.shape pattern.directoriesOnly fuel =
      follow tree pattern.directoriesOnly fuel :=
    fun fuel => funext (follow_shape tree pattern.directoriesOnly fuel)
  have hlength : tree.shape.entries.length = tree.entries.length := length_map _
  simp only [list, candidates_shape, hlength, hfollow]

end Wildcard

variable {tree other : FileTree}

/-- The same files are discovered in trees of one shape. -/
theorem Discovery.files_congr (h : tree.shape = other.shape) (root : String)
    (includes excludes : List String) :
    files tree root includes excludes = files other root includes excludes := by
  have hshape : ∀ tree : FileTree, filesOf tree.shape root excludes =
      filesOf tree root excludes := by
    intro tree
    funext pattern
    simp only [filesOf, Wildcard.list_shape, isFile_shape]
  unfold files
  rw [← hshape tree, h, hshape other]

/-- Distinct paths are told apart from those seen before and from one another. -/
theorem Discovery.distinct_keys (seen : List (Bool × List Route.Step)) (paths : List String) :
    (∀ path ∈ distinct seen paths, key path ∉ seen) ∧
      (distinct seen paths).Pairwise
        fun first second => key first ≠ key second := by
  induction paths generalizing seen with
  | nil => exact ⟨forall_mem_nil _, List.Pairwise.nil⟩
  | cons path rest ih =>
    rw [distinct]
    split
    · exact ih seen
    next hseen =>
      obtain ⟨hnew, hapart⟩ := ih (key path :: seen)
      refine ⟨forall_mem_cons.mpr ⟨by simpa using hseen, fun other hmem hfound => ?_⟩,
        pairwise_cons.mpr ⟨fun other hmem hsame => ?_, hapart⟩⟩
      · exact hnew other hmem (mem_cons_of_mem _ hfound)
      · exact hnew other hmem (hsame ▸ mem_cons_self)

theorem Discovery.files_nodup {root : String} {includes excludes found : List String}
    (h : files tree root includes excludes = .ok found) : found.Nodup := by
  obtain ⟨lists, -, h⟩ := bind_eq_ok_iff.mp h
  cases h
  refine List.Pairwise.imp ?_ (distinct_keys [] lists.flatten).2
  intro first second hkeys hsame
  exact hkeys (congrArg key hsame)

/-- What is required not to be empty is trimmed. -/
theorem requireNonEmpty_ok {value field problem given : String}
    (h : requireNonEmpty value field problem = .ok given) : given = trimString value := by
  unfold requireNonEmpty at h
  simp only at h
  split at h
  · cases h
  · exact (Except.ok.inj h).symm

/-- The location of the configuration that a user names. -/
def Configuration.location (environment : Environment) (tree : FileTree) (path : String) :
    Location :=
  tree.destination (Route.ofString (environment.expandPath (trimString path)))

/-- The same configuration is loaded in trees of one shape with the same node in its place. -/
theorem Configuration.load_congr {tree other : FileTree} (h : tree.shape = other.shape)
    (environment : Environment) (path : String)
    (hnode : tree.nodeAt? (Configuration.location environment tree path) =
      other.nodeAt? (Configuration.location environment tree path)) :
    load environment tree path = load environment other path := by
  have hpath : ∀ given, tree.hasPath given = other.hasPath given := by
    intro given
    rw [← tree.hasPath_shape, h, other.hasPath_shape]
  unfold load
  cases hgiven : requireNonEmpty path "config" "Configuration path cannot be empty" with
  | error error => simp only [bind, Except.bind]
  | ok given =>
    have htrimmed := requireNonEmpty_ok hgiven
    have hload : tree.load (environment.expandPath given) "read config" =
        other.load (environment.expandPath given) "read config" := by
      rw [htrimmed]
      exact FileTree.load_congr h (fun _ => hnode) _
    simp only [bind, Except.bind, hpath, hload]

/-! ## What is found -/

open Route

variable {tree : FileTree} {path root : String} {includes excludes found : List String}

theorem FileTree.destination_of_names {route : Route} {names : List String}
    (h : route.steps = names.map .name) : tree.destination route = tree.start route ++ names := by
  rw [destination, h, foldl_map]
  generalize tree.start route = location
  clear h
  induction names generalizing location with
  | nil => rw [foldl_nil, append_nil]
  | cons next names ih => rw [foldl_cons, ih, Step.follow, append_assoc, singleton_append]

namespace Discovery

/-- One of the patterns, read below the root, lists the path. -/
def Listed (tree : FileTree) (root : String) (includes : List String) (path : String) : Prop :=
  ∃ pattern ∈ includes, ∃ listed, Wildcard.Pattern.read (join root pattern) = .ok listed ∧
    path ∈ Wildcard.list tree listed

/-- A path is kept unless one with the same steps is. -/
theorem mem_distinct (seen : List (Bool × List Step)) (paths : List String) :
    (∀ path ∈ distinct seen paths, path ∈ paths) ∧
      ∀ path ∈ paths, key path ∈ seen ∨ ∃ other ∈ distinct seen paths, key other = key path := by
  induction paths generalizing seen with
  | nil => simp [distinct]
  | cons path rest ih =>
    rw [distinct]
    split
    next hseen =>
      obtain ⟨hkept, hleft⟩ := ih seen
      exact ⟨fun other hmem => mem_cons_of_mem _ (hkept other hmem),
        forall_mem_cons.mpr ⟨.inl (by simpa using hseen), hleft⟩⟩
    · obtain ⟨hkept, hleft⟩ := ih (key path :: seen)
      refine ⟨fun other hmem => ?_, forall_mem_cons.mpr ⟨.inr ⟨path, mem_cons_self, rfl⟩, ?_⟩⟩
      · exact (mem_cons.mp hmem).elim (· ▸ mem_cons_self) (mem_cons_of_mem _ ∘ hkept other)
      · intro other hmem
        grind

/-- What is found is kept of the files that are listed and not excluded. -/
theorem exists_of_files (h : files tree root includes excludes = .ok found) :
    ∃ paths, found = distinct [] paths ∧ ∀ path, path ∈ paths ↔ Listed tree root includes path ∧
      tree.isFile path = true ∧ Filter.acceptsAny excludes (relative root path) = false := by
  obtain ⟨lists, hlists, h⟩ := bind_eq_ok_iff.mp h
  cases h
  refine ⟨lists.flatten, rfl, fun path => ?_⟩
  rw [mapM_eq_ok_iff] at hlists
  clear h
  unfold Listed
  induction hlists with
  | nil => simp
  | cons hlist _ ih =>
    unfold filesOf at hlist
    split at hlist
    · cases hlist
    next listed hread =>
      cases hlist
      rw [flatten_cons, mem_append, ih, mem_filter]
      simp only [mem_cons, or_and_right, exists_or, exists_eq_left, hread, Except.ok.injEq,
        exists_eq_left', Bool.and_eq_true, Bool.not_eq_true']

/-- What is found is the files that are listed and not excluded, each spelling once. Paths of names
only, all relative or all absolute, are of different files. -/
theorem files_exact (h : files tree root includes excludes = .ok found) :
    found.Pairwise (fun first second => key first ≠ key second ∧
      ∀ names others, (ofString first).isAbsolute = (ofString second).isAbsolute →
        (ofString first).steps = map .name names → (ofString second).steps = map .name others →
        tree.destination (ofString first) ≠ tree.destination (ofString second)) ∧
    (∀ path ∈ found, Listed tree root includes path ∧
      (∃ content, tree.nodeAt? (tree.destination (ofString path)) = some (.file content)) ∧
      Filter.acceptsAny excludes (relative root path) = false) ∧
    ∀ path, Listed tree root includes path → tree.isFile path = true →
      Filter.acceptsAny excludes (relative root path) = false →
      ∃ other ∈ found, key other = key path := by
  obtain ⟨paths, rfl, hpaths⟩ := exists_of_files h
  obtain ⟨hkept, hleft⟩ := mem_distinct [] paths
  refine ⟨(distinct_keys [] paths).2.imp ?_, ?_, ?_⟩
  · intro first second hkey
    refine ⟨hkey, fun names others habsolute hfirst hsecond hsame => ?_⟩
    have hstart : tree.start (ofString first) = tree.start (ofString second) := by
      rw [start, start, habsolute]
    rw [destination_of_names hfirst, destination_of_names hsecond, hstart,
      append_cancel_left_eq] at hsame
    exact hkey (Prod.ext habsolute (by rw [key, key, hfirst, hsecond, hsame]))
  · intro path hpath
    obtain ⟨hlisted, hfile, hexcluded⟩ := (hpaths path).mp (hkept path hpath)
    refine ⟨hlisted, ?_, hexcluded⟩
    unfold isFile at hfile
    split at hfile
    next content hnode => exact ⟨content, nodeAt?_of_node? hnode⟩
    · cases hfile
  · intro path hlisted hfile hexcluded
    exact (hleft path ((hpaths path).mpr ⟨hlisted, hfile, hexcluded⟩)).resolve_left (by simp)

/-- Two files of which one is listed twice, with and without a dot. -/
theorem files_exact_dot :
    let tree : FileTree := ⟨[(["a.css"], .file []), (["sub"], .directory),
      (["sub", "b.css"], .file []), (["c.css"], .file [])], []⟩
    files tree "" ["a.css", "c.css", "./a.css", "sub//b.css"] ["c.css"] =
        .ok ["a.css", "sub/b.css"] ∧
      tree.destination (ofString "a.css") ≠ tree.destination (ofString "sub/b.css") := by
  intro tree
  have hfound : files tree "" ["a.css", "c.css", "./a.css", "sub//b.css"] ["c.css"] =
      .ok ["a.css", "sub/b.css"] := by
    decide
  have hapart := (pairwise_cons.mp (files_exact hfound).1).1 "sub/b.css" mem_cons_self
  exact ⟨hfound, hapart.2 ["a.css"] ["sub", "b.css"] (by decide) (by decide) (by decide)⟩

/-- A file is found twice, and found though it is excluded. -/
theorem files_twice :
    let tree : FileTree := ⟨[(["a.css"], .file []), (["sub"], .directory)], []⟩
    files tree "" ["a.css", "sub/../a.css"] [] = .ok ["a.css", "sub/../a.css"] ∧
      tree.destination (ofString "a.css") = tree.destination (ofString "sub/../a.css") ∧
      files tree "" ["sub/../a.css"] ["a.css"] = .ok ["sub/../a.css"] ∧
      Filter.acceptsAny ["a.css"] "a.css" = true := by
  decide

end Discovery

end Restyle
