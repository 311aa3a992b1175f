import SheetImports.Store.Basic
import SheetImports.Text.Bounded
import SheetImports.Text.Utf8

/-!
# Disks

A disk holds files, directories and symbolic links at locations, the lists of names that lead to
them from the root. A file may be locked: then it is known to be one and cannot be opened. A path is
walked name by name from the root or from the working directory: empty names and `.` stay in place,
`..` goes up, a link is replaced by its target. Every name is walked from a directory. The last may
be missing: the walk then ends where there is nothing yet, which is where a file would be written
(`write`).

At most forty links are followed, so a walk ends although links may form a cycle: between two links
it goes through the names that are left (`advance`).

A path is walked in two ways. To be looked at or opened, it must not be too long as it is given
(`kind`, `look`). To be made free of links, it may have any length, but the path of every place on
the way must not be too long (`canonical`).
-/

namespace SheetImports

/-- The names that lead from the root to a place. -/
abbrev Location := List Text

/-- What a disk holds at a location. -/
inductive Node where
  | file (bytes : Bytes)
  /-- A file that may not be opened. -/
  | locked
  | directory
  | link (target : Text)
  deriving DecidableEq, Repr

/-- A file system with its working directory. -/
structure Disk where
  nodes : List (Location × Node) := []
  workingDirectory : Location := []
  deriving DecidableEq, Repr

namespace Disk

/-- What is at a location; the root is always a directory. -/
def lookup (disk : Disk) (location : Location) : Option Node :=
  if location = [] then some .directory else disk.nodes.lookup location

/-- The path of a location. -/
def pathOf (location : Location) : Text := '/' :: ['/'].intercalate location

/-! ## Walking -/

/-- How far a walk comes without following a link. -/
inductive Progress where
  | arrived (here : Location)
  | link (here : Location) (target : Text) (names : List Text)
  | failed (cause : Cause)
  deriving DecidableEq, Repr

/-- The longest name, in octets. -/
def maxName : Nat := 255

/-- The longest path, in octets. -/
def maxPath : Nat := 4095

/-- The most links that one walk follows. -/
def maxLinks : Nat := 40

/-- Every location. -/
def anywhere (_ : Location) : Bool := true

/-- A location whose path is not too long. -/
def fits (location : Location) : Bool := (Utf8.encode (pathOf location)).length ≤ maxPath

/-- The walk from a location through the given names, up to the first link. It goes down only to
locations that are admitted. Only the last name may be missing. -/
def advance (disk : Disk) (admits : Location → Bool) (here : Location) : List Text → Progress
  | [] => .arrived here
  | name :: names =>
    if disk.lookup here ≠ some .directory then .failed .notDirectory
    else if name = [] ∨ name = ".".toList then advance disk admits here names
    else if name = "..".toList then advance disk admits here.dropLast names
    else if maxName < (Utf8.encode name).length ∨ !admits (here ++ [name]) then
      .failed .nameTooLong
    else
      match disk.lookup (here ++ [name]), names with
      | some (.link target), names => .link here target names
      | none, _ :: _ => .failed .absent
      | _, names => advance disk admits (here ++ [name]) names

/-- Where a path starts: at the root, or where the walk stands. -/
def start (here : Location) (path : Text) : Location := if path.head? = some '/' then [] else here

/-- The walk from a location through the given names, following at most `links` links. -/
def walk (disk : Disk) (admits : Location → Bool) (links : Nat) (here : Location)
    (names : List Text) : Except Cause Location :=
  match disk.advance admits here names, links with
  | .arrived there, _ => .ok there
  | .failed cause, _ => .error cause
  | .link _ _ _, 0 => .error .tooManyLinks
  | .link there target names, links + 1 =>
    walk disk admits links (start there target) (target.splitOn '/' ++ names)

/-- The walk along a path from the working directory. The empty path leads nowhere. -/
def locate (disk : Disk) (admits : Location → Bool) (path : Text) : Except Cause Location :=
  if path = [] then .error .absent
  else disk.walk admits maxLinks (start disk.workingDirectory path) (path.splitOn '/')

/-! ## Answers -/

/-- What is at a path, with no link in its place. The path must not be too long; where it leads to
may have a longer one. -/
def nodeAt (disk : Disk) (path : Text) : Except Cause Node :=
  if '\x00' ∈ path then .error .nulInPath
  else if maxPath < (Utf8.encode path).length then .error .nameTooLong
  else
    match disk.locate anywhere path with
    | .error cause => .error cause
    | .ok location => (disk.lookup location).elim (.error .absent) .ok

/-- What a path leads to. -/
def kind (disk : Disk) (path : Text) : Except Cause Kind :=
  match disk.nodeAt path with
  | .ok (.file _) | .ok .locked => .ok .file
  | .ok .directory => .ok .directory
  | .ok (.link _) => .error .absent
  | .error cause => .error cause

/-- What is found at a path when it is opened. -/
def look (disk : Disk) (path : Text) : Except Cause Content :=
  match disk.nodeAt path with
  | .ok (.file bytes) => .ok (.file bytes)
  | .ok .locked => .error .denied
  | .ok .directory => .ok .directory
  | .ok (.link _) => .error .absent
  | .error cause => .error cause

/-- The path free of links of the place at a path. It is built name by name, so the path may have
any length, but no path on the way may be too long. -/
def canonical (disk : Disk) (path : Text) : Except Cause Text :=
  if '\x00' ∈ path then .error .nulInPath
  else
    match disk.locate fits path with
    | .error cause => .error cause
    | .ok location =>
      if (disk.lookup location).isSome then .ok (pathOf location) else .error .absent

/-- The paths of all locations. -/
def paths (disk : Disk) : List Text :=
  pathOf [] :: disk.nodes.map fun (location, _) => pathOf location

theorem mem_paths_of_lookup {disk : Disk} {location : Location}
    (h : (disk.lookup location).isSome = true) : pathOf location ∈ disk.paths := by
  obtain ⟨node, hnode⟩ := Option.isSome_iff_exists.1 h
  unfold lookup at hnode
  split at hnode
  next hroot => simp [paths, hroot]
  next =>
    obtain ⟨before, after, hnodes, -⟩ := List.lookup_eq_some_iff.1 hnode
    simp [paths, hnodes]

/-- A path free of links is the path of a location. -/
theorem mem_paths_of_canonical {disk : Disk} {path place : Text}
    (h : disk.canonical path = .ok place) : place ∈ disk.paths := by
  unfold canonical at h
  split at h
  · cases h
  · split at h
    · cases h
    · split at h
      next hsome => cases h; exact mem_paths_of_lookup hsome
      next => cases h

theorem length_le_of_nodeAt {disk : Disk} {path : Text} {node : Node}
    (h : disk.nodeAt path = .ok node) : path.length ≤ maxPath := by
  unfold nodeAt at h
  split at h
  · cases h
  · split at h
    · cases h
    next hlength =>
      have := Utf8.length_le_length_encode path
      omega

theorem length_le_of_look {disk : Disk} {path : Text} {content : Content}
    (h : disk.look path = .ok content) : path.length ≤ maxPath := by
  cases hnode : disk.nodeAt path with
  | ok node => exact length_le_of_nodeAt hnode
  | error cause =>
    rw [look, hnode] at h
    cases h

/-- The keys of the paths at which something is found are places, or else not too long. -/
theorem exists_keys (disk : Disk) :
    ∃ keys : List Text, keys.length ≤ disk.paths.length + Text.countUpTo maxPath ∧
      ∀ {path : Text} {content : Content}, disk.look path = .ok content →
        (disk.canonical path).toOption.getD path ∈ keys := by
  obtain ⟨texts, hcount, hmem⟩ := Text.exists_list_upTo maxPath
  refine ⟨disk.paths ++ texts, ?_, fun {path} {content} h => ?_⟩
  · rw [List.length_append]
    omega
  · cases hplace : disk.canonical path with
    | ok place => exact List.mem_append_left _ (mem_paths_of_canonical hplace)
    | error cause => exact List.mem_append_right _ (hmem path (length_le_of_look h))

/-- A disk as a store. -/
def toStore (disk : Disk) : Store :=
  ⟨disk.kind, disk.look, disk.canonical, disk.paths.length + Text.countUpTo maxPath,
    disk.exists_keys⟩

/-! ## Changes -/

/-- The disk with a node at a location, in place of what was there. -/
def set (disk : Disk) (location : Location) (node : Node) : Disk :=
  { disk with nodes := disk.nodes.filter (·.1 ≠ location) ++ [(location, node)] }

/-- The disk without a location and all that is below it. -/
def erase (disk : Disk) (location : Location) : Disk :=
  { disk with nodes := disk.nodes.filter fun (other, _) => !location.isPrefixOf other }

/-- The directory reached through the given names, made where a name is missing. A link to nothing
is an error, for no directory is made through a link. -/
def makeDirectory (disk : Disk) (here : Location) : List Text → Except Cause (Disk × Location)
  | [] => .ok (disk, here)
  | name :: names => do
    let there ← disk.walk anywhere maxLinks here [name]
    match disk.lookup there with
    | some .directory => makeDirectory disk there names
    | some _ => .error .notDirectory
    | none =>
      if there = here ++ [name] then makeDirectory (disk.set there .directory) there names
      else .error .absent

/-- The disk with a file at a name in a directory. The file is written where the name leads: a link
stays, and the file takes the place of its target, or becomes its target if that is missing. -/
def write (disk : Disk) (directory : Location) (name : Text) (bytes : Bytes) :
    Except Cause Disk := do
  let there ← disk.walk anywhere maxLinks directory [name]
  match disk.lookup there with
  | some .directory => .error .isDirectory
  | some .locked => .error .denied
  | _ => return disk.set there (.file bytes)

/-- The disk with a file, directory or link at a path from a given location, and with the
directories that lead there. A file is written through links; a link takes the place of what was
there. -/
def put (disk : Disk) (here : Location) (path : Text) (node : Node) : Except Cause Disk :=
  let names := (path.splitOn '/').filter (· ≠ [])
  match node, names.getLast? with
  | .directory, _ | _, none => (disk.makeDirectory here names).map (·.1)
  | node, some name => do
    let (disk, directory) ← disk.makeDirectory here names.dropLast
    match node with
    | .file bytes => disk.write directory name bytes
    | node => return disk.set (directory ++ [name]) node

/-- The disk without what is at a path from a given location; a link is removed, not followed. -/
def remove (disk : Disk) (here : Location) (path : Text) : Except Cause Disk :=
  let names := (path.splitOn '/').filter (· ≠ [])
  match names.getLast? with
  | none => .error .absent
  | some name => do
    let directory ← disk.walk anywhere maxLinks here names.dropLast
    return disk.erase (directory ++ [name])

end Disk

end SheetImports
