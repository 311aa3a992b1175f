import SheetImports.Proofs.WayUp
import SheetImports.Store.Disk

/-!
# The nearest configuration

A configuration is looked for in one directory after the other on the way up from the start of a run
(`Searched`). What is not a file is passed over, whatever else it is. The first file decides alone
(`Decides`): if it cannot be opened or is no configuration, there is none, although a directory
farther up may have one (`load_nearest`).
-/

namespace SheetImports.Config

open Uri

/-- In the directory there is a file for a configuration, whether it can be opened or not. -/
def Has (store : Store) (directory : Text) : Prop :=
  store.kind (Path.join directory fileName) = .ok .file

/-- The directories in which a configuration is looked for, from the nearest to the root: the first
is the start if that is a directory, else the one above it. Nothing is above the root. -/
inductive Searched (store : Store) (start : Text) : List Text → Prop
  | here {way : List Text} : store.kind start = .ok .directory → Path.WayUp start way →
      Searched store start way
  | above {directory : Text} {way : List Text} : store.kind start ≠ .ok .directory →
      Path.Above directory start → Path.WayUp directory way → Searched store start way
  | nowhere : store.kind start ≠ .ok .directory → Path.IsRoot start → Searched store start []

/-- What the file in the directory makes of the search for a configuration, and what is reported:
there is none if the file cannot be opened, is not UTF-8 or is not JSON. Else the configuration
lists the strings among its search paths, each as a root. -/
inductive Decides (readJson : JsonReader) (store : Store) (directory : Text) :
    Option Config × List Event → Prop
  | unread {cause : Cause} : store.read (Path.join directory fileName) = .error cause →
      Decides readJson store directory
        (none, [.unreadableConfig (Path.join directory fileName) cause])
  | noText {bytes : Bytes} : store.read (Path.join directory fileName) = .ok bytes →
      (∀ text, bytes ≠ Utf8.encode text) →
      Decides readJson store directory
        (none, [.unreadableConfig (Path.join directory fileName) .notUtf8])
  | noJson {text problem : Text} :
      store.read (Path.join directory fileName) = .ok (Utf8.encode text) →
      readJson text = .error problem →
      Decides readJson store directory
        (none, [.malformedConfig (Path.join directory fileName) problem])
  | read {text : Text} {value : Json} :
      store.read (Path.join directory fileName) = .ok (Utf8.encode text) →
      readJson text = .ok value →
      Decides readJson store directory
        (some ⟨Path.join directory fileName, (listed value).map (rootOf directory)⟩,
          ignored (Path.join directory fileName) value)

/-! ## The directories -/

theorem isDirectory_iff {store : Store} {path : Text} :
    store.isDirectory path = true ↔ store.kind path = .ok .directory := by
  unfold Store.isDirectory
  split
  next h => simp [h]
  next h => simpa using h

/-- The directories that the definition of the way allows are those that the search goes through. -/
theorem searched_iff {store : Store} {start : Text} {way : List Text} (hstart : Path.Plain start) :
    Searched store start way ↔ way = directories store start := by
  unfold directories
  by_cases hdirectory : store.isDirectory start = true
  · have hkind := isDirectory_iff.1 hdirectory
    rw [if_pos hdirectory]
    refine ⟨fun h => ?_, fun h => .here hkind ((Path.wayUp_iff hstart).2 h)⟩
    cases h with
    | here _ hway => exact (Path.wayUp_iff hstart).1 hway
    | above hnot | nowhere hnot => exact absurd hkind hnot
  · have hkind : store.kind start ≠ .ok .directory := mt isDirectory_iff.2 hdirectory
    rw [if_neg hdirectory]
    refine ⟨fun h => ?_, fun h => ?_⟩
    · cases h with
      | here hnot => exact absurd hnot hkind
      | above _ habove hway =>
        rw [Path.parent?_of_above hstart habove]
        exact (Path.wayUp_iff (habove.plain hstart)).1 hway
      | nowhere _ hroot =>
        rw [Path.parent?_of_isRoot hroot]
        rfl
    · subst h
      rcases Path.isRoot_or_above hstart.rooted with hroot | ⟨directory, habove⟩
      · rw [Path.parent?_of_isRoot hroot]
        exact .nowhere hkind hroot
      · rw [Path.parent?_of_above hstart habove]
        exact .above hkind habove (Path.wayUp_selfAndParents (habove.plain hstart))

theorem Searched.plain {store : Store} {start : Text} {way : List Text}
    (h : Searched store start way) (hstart : Path.Plain start) :
    ∀ directory ∈ way, Path.Plain directory := by
  cases h with
  | here _ hway => exact hway.plain hstart
  | above _ habove hway => exact hway.plain (habove.plain hstart)
  | nowhere => exact fun _ hdirectory => nomatch hdirectory

/-! ## The file -/

/-- The search asks for a regular file, and does not open it. -/
theorem isFile_iff {store : Store} {directory : Text} :
    store.isFile (Path.join directory fileName) = true ↔ Has store directory := by
  unfold Store.isFile Has
  split
  next h => simp [h]
  next h => simpa using h

/-- How many slashes end the directory makes no difference to its search roots. -/
theorem rootOf_congr {directory other : Text} (entry : Text)
    (h : directory.trimEnd (· == '/') = other.trimEnd (· == '/')) :
    rootOf directory entry = rootOf other entry := by
  rw [rootOf, rootOf, Path.toUri, Path.toUri, h]

/-- The first directory on the way that has a file gives the path. -/
theorem find?_of_has {store : Store} {start directory : Text} {before after : List Text}
    (hway : directories store start = before ++ directory :: after)
    (hbefore : ∀ nearer ∈ before, ¬ Has store nearer) (h : Has store directory) :
    find? store start = some (Path.join directory fileName) := by
  rw [find?, hway, List.map_append, List.map_cons, List.find?_append, List.find?_eq_none.2,
    Option.none_or, List.find?_cons_of_pos]
  · exact isFile_iff.2 h
  · intro path hpath hfile
    obtain ⟨nearer, hnearer, rfl⟩ := List.mem_map.1 hpath
    exact hbefore nearer hnearer (isFile_iff.1 hfile)

theorem find?_eq_none {store : Store} {start : Text}
    (h : ∀ directory ∈ directories store start, ¬ Has store directory) :
    find? store start = none := by
  refine List.find?_eq_none.2 fun path hpath hfile => ?_
  obtain ⟨directory, hdirectory, rfl⟩ := List.mem_map.1 hpath
  exact h directory hdirectory (isFile_iff.1 hfile)

/-- The file that was found decides. -/
theorem decides_of_find? (readJson : JsonReader) {store : Store} {start directory : Text}
    (hdirectory : Path.Plain directory)
    (hfind : find? store start = some (Path.join directory fileName)) :
    Decides readJson store directory (load store start readJson) := by
  obtain ⟨parent, hparent, htrim⟩ := Path.exists_parent?_join hdirectory
    (show fileName ≠ [] by decide) (by decide) (by decide)
  unfold load Store.readUtf8
  rw [hfind]
  dsimp only
  cases hread : store.read (Path.join directory fileName) with
  | error cause => exact .unread hread
  | ok bytes =>
    dsimp only
    cases htext : Utf8.decode? bytes with
    | none =>
      refine .noText hread fun text h => ?_
      rw [Utf8.decode?_eq_some_iff.2 h] at htext
      cases htext
    | some text =>
      obtain rfl := Utf8.decode?_eq_some_iff.1 htext
      rw [Option.elim_some, hparent]
      dsimp only
      cases hvalue : readJson text with
      | error problem => exact .noJson hread hvalue
      | ok value =>
        have hroots : (listed value).map (rootOf parent) = (listed value).map (rootOf directory) :=
          List.map_congr_left fun entry _ => rootOf_congr entry htrim
        dsimp only
        rw [searchPathsOf_eq, hroots]
        exact .read hread hvalue

/-- From a path without `.`, the search for a configuration goes through the directories from the
nearest to the root. If none of them has a file for a configuration, there is none, and nothing is
reported. Else the nearest one that has decides, even if it cannot be opened, and none farther up
does. -/
theorem load_nearest (readJson : JsonReader) (store : Store) {start : Text}
    (hstart : Path.Plain start) :
    (∃ way, Searched store start way) ∧ ∀ way, Searched store start way →
      ((∀ directory ∈ way, ¬ Has store directory) → load store start readJson = (none, [])) ∧
      ∀ before directory after, way = before ++ directory :: after →
        (∀ nearer ∈ before, ¬ Has store nearer) → Has store directory →
        Decides readJson store directory (load store start readJson) := by
  refine ⟨⟨_, (searched_iff hstart).2 rfl⟩, fun way hway => ?_⟩
  obtain rfl := (searched_iff hstart).1 hway
  refine ⟨fun hnone => ?_, fun before directory after hsplit hbefore hfile => ?_⟩
  · rw [load, find?_eq_none hnone]
  · have hplain : Path.Plain directory := hway.plain hstart directory (by rw [hsplit]; simp)
    exact decides_of_find? readJson hplain (find?_of_has hsplit hbefore hfile)

/-- A file decides in one way. -/
theorem Decides.eq_of_read {readJson : JsonReader} {store : Store} {directory : Text}
    {found : Option Config × List Event} (h : Decides readJson store directory found) :
    found.1 = match store.readUtf8 (Path.join directory fileName) with
      | .error _ => none
      | .ok text => (readJson text).toOption.map fun value =>
          ⟨Path.join directory fileName, (listed value).map (rootOf directory)⟩ := by
  unfold Store.readUtf8
  cases h with
  | unread hread => rw [hread]
  | @noText bytes hread hbytes =>
    have htext : Utf8.decode? bytes = none := by
      rw [Option.eq_none_iff_forall_ne_some]
      intro text heq
      exact hbytes text (Utf8.decode?_eq_some_iff.1 heq)
    rw [hread]
    dsimp only
    rw [htext]
    rfl
  | noJson hread hvalue | read hread hvalue =>
    rw [hread]
    dsimp only
    rw [Utf8.decode?_encode, Option.elim_some]
    dsimp only
    rw [hvalue]
    rfl

/-- A disk on which a link to nothing and a directory have the name of a configuration. Farther up,
a link of that name leads to the given node, and at the root there is a file. -/
def nestedDisk (node : Node) : Disk where
  nodes := [
    (["p".toList], .directory),
    (["p".toList, "a".toList], .directory),
    (["p".toList, "a".toList, "b".toList], .directory),
    (["p".toList, "a".toList, "b".toList, fileName], .link "gone".toList),
    (["p".toList, "a".toList, fileName], .directory),
    (["p".toList, fileName], .link "/shared.json".toList),
    (["shared.json".toList], node),
    ([fileName], .file (Utf8.encode themedConfig))]

/-- A path on that disk at which nothing is. -/
def nestedStart : Text := "/p/a//b/x.scss".toList

theorem searched_nestedDisk (node : Node)
    (hkind : (nestedDisk node).toStore.kind nestedStart ≠ .ok .directory) :
    Searched (nestedDisk node).toStore nestedStart
      ["/p/a//b".toList, "/p/a".toList, "/p".toList, "/".toList] :=
  .above hkind ⟨"/p/a//b".toList, "x.scss".toList, 0, 0, by decide⟩ <|
    .up ⟨"/p/a".toList, ['b'], 1, 0, by decide⟩ <|
    .up ⟨"/p".toList, ['a'], 0, 0, by decide⟩ <|
    .up ⟨[], ['p'], 0, 0, by decide⟩ <| .root ⟨0, rfl⟩

theorem load_nestedDisk :
    Path.Plain nestedStart ∧
      ∀ node ∈ [Node.file (Utf8.encode themedConfig), .locked],
        (∀ nearer ∈ ["/p/a//b".toList, "/p/a".toList], ¬ Has (nestedDisk node).toStore nearer) ∧
        Has (nestedDisk node).toStore "/p".toList ∧ Has (nestedDisk node).toStore "/".toList ∧
        (load (nestedDisk node).toStore nestedStart Json.parse).1 = if node = .locked then none
          else some ⟨"/p/stylepath.json".toList, ["/p/lib".toList, "/shared".toList]⟩ := by
  have hstart : Path.Plain nestedStart := ⟨rfl, by decide⟩
  refine ⟨hstart, fun node hnode => ?_⟩
  have hkinds : ∀ node ∈ [Node.file (Utf8.encode themedConfig), .locked],
      (nestedDisk node).toStore.kind nestedStart ≠ .ok .directory ∧
      (∀ nearer ∈ ["/p/a//b".toList, "/p/a".toList],
        (nestedDisk node).toStore.kind (Path.join nearer fileName) ≠ .ok .file) ∧
      (nestedDisk node).toStore.kind (Path.join "/p".toList fileName) = .ok .file ∧
      (nestedDisk node).toStore.kind (Path.join "/".toList fileName) = .ok .file := by
    decide +kernel
  obtain ⟨hkind, hnearer, hfile, hroot⟩ := hkinds node hnode
  refine ⟨hnearer, hfile, hroot, ?_⟩
  have hdecides := ((load_nearest Json.parse _ hstart).2 _ (searched_nestedDisk node hkind)).2
    ["/p/a//b".toList, "/p/a".toList] "/p".toList ["/".toList] rfl hnearer hfile
  rw [hdecides.eq_of_read]
  clear hdecides hkind hnearer hfile hroot
  revert node
  decide +kernel

/-- A configuration that is no JSON hides the one at the root. -/
example :
    (load (nestedDisk (.file (Utf8.encode ['[']))).toStore nestedStart Json.parse).1 = none := by
  decide +kernel

end SheetImports.Config
